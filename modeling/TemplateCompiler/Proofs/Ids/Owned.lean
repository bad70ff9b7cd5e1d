import TemplateCompiler.Proofs.Block.Contents
import Mathlib.Data.List.Flatten

/-! # Ids that a block owns

Nodes, placeholders and the later tests of a condition have ids. A block owns those of its own nodes
and operations, and those of all blocks inside it.
-/

namespace TemplateCompiler

/-! ## Nodes -/

mutual

/-- The ids of a node, of the placeholder before it and of all nodes inside it. -/
def NodeInfo.ids : NodeInfo → List Nat
  | ⟨id, _, anchor, children, _, _⟩ => id.toList ++ anchor.toList ++ nodeIds children

def nodeIds : List NodeInfo → List Nat
  | [] => []
  | d :: ds => d.ids ++ nodeIds ds

end

theorem NodeInfo.ids_eq (d : NodeInfo) :
    d.ids = d.id.toList ++ d.anchor.toList ++ nodeIds d.children := by
  cases d
  rfl

@[simp] theorem nodeIds_append (ds es : List NodeInfo) :
    nodeIds (ds ++ es) = nodeIds ds ++ nodeIds es := by
  induction ds with
  | nil => rfl
  | cons d ds ih => simp [nodeIds, ih]

theorem nodeIds_eq_flatMap (ds : List NodeInfo) : nodeIds ds = ds.flatMap NodeInfo.ids := by
  induction ds with
  | nil => rfl
  | cons d ds ih => simp [nodeIds, ih]

theorem NodeInfo.ids_sublist_nodeIds {d : NodeInfo} {ds : List NodeInfo} (h : d ∈ ds) :
    d.ids.Sublist (nodeIds ds) := by
  rw [nodeIds_eq_flatMap, List.flatMap_def]
  exact List.sublist_flatten_of_mem (List.mem_map_of_mem h)

/-- The ids of nodes are their own ones, those of placeholders, and those of nodes inside. -/
theorem count_nodeIds (ds : List NodeInfo) (x : Nat) :
    (nodeIds ds).count x = (ds.filterMap (·.id)).count x + (ds.filterMap (·.anchor)).count x +
      (ds.flatMap (nodeIds ·.children)).count x := by
  induction ds with
  | nil => rfl
  | cons d ds ih =>
    have hcons : ∀ f : NodeInfo → Option Nat,
        ((d :: ds).filterMap f).count x = (f d).toList.count x + (ds.filterMap f).count x := by
      intro f
      cases h : f d <;> simp [h, List.count_cons, Nat.add_comm]
    simp only [nodeIds, List.count_append, NodeInfo.ids_eq, hcons, List.flatMap_cons, ih]
    omega

theorem NodeInfo.mem_ids_of_id {d : NodeInfo} {id : Nat} (h : d.id = some id) : id ∈ d.ids := by
  simp [ids_eq, h]

theorem NodeInfo.notMem_nodeIds {d : NodeInfo} {id : Nat} (h : d.ids.Nodup) (hid : d.id = some id) :
    id ∉ nodeIds d.children := by
  rw [ids_eq, hid] at h
  simp only [Option.toList_some, List.cons_append, List.nodup_cons] at h
  exact fun hmem => h.1 (List.mem_append_right _ hmem)

/-! ## Operations and blocks -/

/-- The ids of the tests after the first one. -/
def Alternative.chainIds : Alternative → List Nat
  | .nothing | .block _ => []
  | .branch id _ _ negative => id :: negative.chainIds

def Operation.chainIds : Operation → List Nat
  | .branch _ _ _ negative => negative.chainIds
  | _ => []

/-- The ids of the nodes of a block and of its chains of tests. -/
def Block.ids (b : Block) : List Nat := b.dynamic.ids ++ b.allOperations.flatMap Operation.chainIds

/-- The ids of a block and of all blocks inside it. -/
def Block.ownedIds (b : Block) : List Nat := b.blocks.flatMap Block.ids

/-- The ids that come with an operation. -/
def Operation.ownedIds (op : Operation) : List Nat := op.chainIds ++ op.blocks.flatMap Block.ids

def Alternative.ownedIds (a : Alternative) : List Nat := a.chainIds ++ a.blocks.flatMap Block.ids

/-- The ids that come with all operations of a block. -/
def Block.operationIds (b : Block) : List Nat := b.allOperations.flatMap Operation.ownedIds

theorem Operation.ownedIds_of_isPlain {op : Operation} (h : op.isPlain = true) :
    op.ownedIds = [] := by
  rw [ownedIds, blocks_of_isPlain h]
  cases op <;> simp_all [chainIds, isPlain]

theorem Block.ownedIds_perm (b : Block) : b.ownedIds.Perm (b.dynamic.ids ++ b.operationIds) := by
  simp only [ownedIds, blocks_eq, List.flatMap_cons, ids, operationIds, List.append_assoc,
    List.flatMap_assoc]
  exact (List.flatMap_append_perm _ _ _).append_left _

theorem Block.operationIds_add (b : Block) (x : Contribution) :
    (b.add x).operationIds.Perm (x.op.ownedIds ++ b.operationIds) :=
  (b.allOperations_add x).flatMap_right Operation.ownedIds

end TemplateCompiler
