/-! # Upper case beyond ASCII -/

namespace TemplateCompiler.Text

/-- Letters from `first` on, `count` of them, whose capitals stand in the same order from `capital`
on. -/
structure CapitalRun where
  first : Nat
  count : Nat
  capital : Nat

def CapitalRun.capital? (n : Nat) (r : CapitalRun) : Option Char :=
  if r.first ≤ n ∧ n < r.first + r.count then some (Char.ofNat (r.capital + (n - r.first))) else none

def capitalRuns : List CapitalRun := [
  ⟨0xE0, 23, 0xC0⟩, ⟨0xF8, 7, 0xD8⟩, ⟨0x23F, 2, 0x2C7E⟩, ⟨0x256, 2, 0x189⟩, ⟨0x28A, 2, 0x1B1⟩,
  ⟨0x345, 1, 0x399⟩, ⟨0x37B, 3, 0x3FD⟩, ⟨0x3AD, 3, 0x388⟩, ⟨0x3B1, 17, 0x391⟩, ⟨0x3C3, 9, 0x3A3⟩,
  ⟨0x3CD, 2, 0x38E⟩, ⟨0x430, 32, 0x410⟩, ⟨0x450, 16, 0x400⟩, ⟨0x561, 38, 0x531⟩,
  ⟨0x10D0, 43, 0x1C90⟩, ⟨0x10FD, 3, 0x1CBD⟩, ⟨0x13F8, 6, 0x13F0⟩, ⟨0x1C83, 2, 0x421⟩,
  ⟨0x1F00, 8, 0x1F08⟩, ⟨0x1F10, 6, 0x1F18⟩, ⟨0x1F20, 8, 0x1F28⟩, ⟨0x1F30, 8, 0x1F38⟩,
  ⟨0x1F40, 6, 0x1F48⟩, ⟨0x1F60, 8, 0x1F68⟩, ⟨0x1F70, 2, 0x1FBA⟩, ⟨0x1F72, 4, 0x1FC8⟩,
  ⟨0x1F76, 2, 0x1FDA⟩, ⟨0x1F78, 2, 0x1FF8⟩, ⟨0x1F7A, 2, 0x1FEA⟩, ⟨0x1F7C, 2, 0x1FFA⟩,
  ⟨0x1FB0, 2, 0x1FB8⟩, ⟨0x1FBE, 1, 0x399⟩, ⟨0x1FD0, 2, 0x1FD8⟩, ⟨0x1FE0, 2, 0x1FE8⟩,
  ⟨0x2170, 16, 0x2160⟩, ⟨0x24D0, 26, 0x24B6⟩, ⟨0x2C30, 48, 0x2C00⟩, ⟨0x2D00, 38, 0x10A0⟩,
  ⟨0xAB70, 80, 0x13A0⟩, ⟨0xFF41, 26, 0xFF21⟩, ⟨0x10428, 40, 0x10400⟩, ⟨0x104D8, 36, 0x104B0⟩,
  ⟨0x10597, 11, 0x10570⟩, ⟨0x105A3, 15, 0x1057C⟩, ⟨0x105B3, 7, 0x1058C⟩, ⟨0x105BB, 2, 0x10594⟩,
  ⟨0x10CC0, 51, 0x10C80⟩, ⟨0x10D70, 22, 0x10D50⟩, ⟨0x118C0, 32, 0x118A0⟩, ⟨0x16E60, 32, 0x16E40⟩,
  ⟨0x16EBB, 25, 0x16EA0⟩, ⟨0x1E922, 34, 0x1E900⟩]

/-- Letters whose capital has an iota after it. -/
def iotaRuns : List CapitalRun := [
  ⟨0x1F80, 8, 0x1F08⟩, ⟨0x1F88, 8, 0x1F08⟩, ⟨0x1F90, 8, 0x1F28⟩, ⟨0x1F98, 8, 0x1F28⟩,
  ⟨0x1FA0, 8, 0x1F68⟩, ⟨0x1FA8, 8, 0x1F68⟩, ⟨0x1FB2, 1, 0x1FBA⟩, ⟨0x1FB3, 1, 0x391⟩,
  ⟨0x1FB4, 1, 0x386⟩, ⟨0x1FBC, 1, 0x391⟩, ⟨0x1FC2, 1, 0x1FCA⟩, ⟨0x1FC3, 1, 0x397⟩,
  ⟨0x1FC4, 1, 0x389⟩, ⟨0x1FCC, 1, 0x397⟩, ⟨0x1FF2, 1, 0x1FFA⟩, ⟨0x1FF3, 1, 0x3A9⟩,
  ⟨0x1FF4, 1, 0x38F⟩, ⟨0x1FFC, 1, 0x3A9⟩]

/-- Every other code point, this many from the given one on, has its capital right before it. -/
def pairedRuns : List (Nat × Nat) := [
  (0x101, 24), (0x133, 3), (0x13A, 8), (0x14B, 23), (0x17A, 3), (0x183, 2), (0x188, 1), (0x18C, 1),
  (0x192, 1), (0x199, 1), (0x1A1, 3), (0x1A8, 1), (0x1AD, 1), (0x1B0, 1), (0x1B4, 2), (0x1B9, 1),
  (0x1BD, 1), (0x1C5, 1), (0x1C8, 1), (0x1CB, 1), (0x1CE, 8), (0x1DF, 9), (0x1F2, 1), (0x1F5, 1),
  (0x1F9, 20), (0x223, 9), (0x23C, 1), (0x242, 1), (0x247, 5), (0x371, 2), (0x377, 1), (0x3D9, 12),
  (0x3F8, 1), (0x3FB, 1), (0x461, 17), (0x48B, 27), (0x4C2, 7), (0x4D1, 48), (0x1C8A, 1),
  (0x1E01, 75), (0x1EA1, 48), (0x2184, 1), (0x2C61, 1), (0x2C68, 3), (0x2C73, 1), (0x2C76, 1),
  (0x2C81, 50), (0x2CEC, 2), (0x2CF3, 1), (0xA641, 23), (0xA681, 14), (0xA723, 7), (0xA733, 31),
  (0xA77A, 2), (0xA77F, 5), (0xA78C, 1), (0xA791, 2), (0xA797, 10), (0xA7B5, 8), (0xA7C8, 2),
  (0xA7CD, 8), (0xA7F6, 1)]

/-- Letters in no run, and their capitals. -/
def loneCapitals : List (Char × Char) :=
  "µÿıſƀƕƚƛƞƿǆǉǌǝǳɐɑɒɓɔəɛɜɠɡɣɤɥɦɨɩɪɫɬɯɱɲɵɽʀʂʃʇʈʉʌʒʝʞάςόϐϑϕϖϗϰϱϲϳϵӏᲀᲁᲂᲅᲆᲇᲈᵹᵽᶎẛὑὓὕὗῥⅎⱥⱦⴧⴭꞔꭓ".toList.zip
    "ΜŸISɃǶȽꟜȠǷǄǇǊƎǱⱯⱭⱰƁƆƏƐꞫƓꞬƔꟋꞍꞪƗƖꞮⱢꞭƜⱮƝƟⱤƦꟅƩꞱƮɄɅƷꞲꞰΆΣΌΒΘΦΠϏΚΡϹͿΕӀВДОТЪѢꙊꝽⱣꟆṠὙὛὝὟῬℲȺȾჇჍꟄꞳ".toList

/-- Letters whose capital form takes several code points. -/
def capitalSequences : List (Nat × String) := [
  (0xDF, "SS"), (0x149, "ʼN"), (0x1F0, "J\u030c"), (0x390, "Ι\u0308\u0301"),
  (0x3B0, "Υ\u0308\u0301"), (0x587, "ԵՒ"), (0x1E96, "H\u0331"), (0x1E97, "T\u0308"),
  (0x1E98, "W\u030a"), (0x1E99, "Y\u030a"), (0x1E9A, "Aʾ"), (0x1F50, "Υ\u0313"),
  (0x1F52, "Υ\u0313\u0300"), (0x1F54, "Υ\u0313\u0301"), (0x1F56, "Υ\u0313\u0342"),
  (0x1FB6, "Α\u0342"), (0x1FB7, "Α\u0342Ι"), (0x1FC6, "Η\u0342"), (0x1FC7, "Η\u0342Ι"),
  (0x1FD2, "Ι\u0308\u0300"), (0x1FD3, "Ι\u0308\u0301"), (0x1FD6, "Ι\u0342"),
  (0x1FD7, "Ι\u0308\u0342"), (0x1FE2, "Υ\u0308\u0300"), (0x1FE3, "Υ\u0308\u0301"),
  (0x1FE4, "Ρ\u0313"), (0x1FE6, "Υ\u0342"), (0x1FE7, "Υ\u0308\u0342"), (0x1FF6, "Ω\u0342"),
  (0x1FF7, "Ω\u0342Ι"), (0xFB00, "FF"), (0xFB01, "FI"), (0xFB02, "FL"), (0xFB03, "FFI"),
  (0xFB04, "FFL"), (0xFB05, "ST"), (0xFB06, "ST"), (0xFB13, "ՄՆ"), (0xFB14, "ՄԵ"), (0xFB15, "ՄԻ"),
  (0xFB16, "ՎՆ"), (0xFB17, "ՄԽ")]

/-- The capital form of one character, which may be longer than one character. -/
def upperChar (c : Char) : List Char :=
  let n := c.toNat
  if n < 0x80 then [c.toUpper]
  else if pairedRuns.any fun r => r.1 ≤ n && n < r.1 + 2 * r.2 && (n - r.1) % 2 == 0 then
    [Char.ofNat (n - 1)]
  else if let some capital := loneCapitals.lookup c <|> capitalRuns.findSome? (·.capital? n) then
    [capital]
  else if let some capital := iotaRuns.findSome? (·.capital? n) then [capital, '\u0399']
  else ((capitalSequences.lookup n).getD c.toString).toList

end TemplateCompiler.Text
