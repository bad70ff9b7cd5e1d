/-! # Names that mean the same everywhere -/

namespace TemplateCompiler.Script

/-- Names of the host that a template may use. -/
def allowedGlobals : List String :=
  ["Infinity", "undefined", "NaN", "isFinite", "isNaN", "parseFloat", "parseInt", "decodeURI",
   "decodeURIComponent", "encodeURI", "encodeURIComponent", "Math", "Number", "Date", "Array",
   "Object", "Boolean", "String", "RegExp", "Map", "Set", "JSON", "Intl", "BigInt", "console"]

def isAllowedGlobal (name : String) : Bool := allowedGlobals.contains name

end TemplateCompiler.Script
