import ScopeIR.Operand.Basic
import ScopeIR.Text.Quoted

/-! How operands are written in listings. -/

namespace ScopeIR

def Symbol.listed (s : Symbol) : String := ":" ++ s.text

def ScopeId.text (id : ScopeId) : String := s!"#{id.index}"

def Label.text (l : Label) : String := s!"{l.stem}_{l.index}"

def TempVar.text : TempVar → String
  | .plain i => s!"%v_{i}"
  | .ofClosure c i => s!"%cl_{c}_{i}"
  | .currentModule i => s!"%current_module_{i}"

def Variable.text : Variable → String
  | .temp t => t.text
  | .named v => s!"{v.name.text}({v.depth}:{v.offset})"
  | .self => "%self"

def boolText (b : Bool) : String := if b then "true" else "false"

def Atom.text : Atom → String
  | .nil => "nil"
  | .boolean b => boolText b
  | .fixnum n => toString n
  | .symbol s => s.listed
  | .string bytes => Text.quoted (Text.Utf8.decodeLossy bytes)
  | .undefined => "%undefined"
  | .currentScope => "%current_scope"
  | .scopeModule depth => s!"module<{depth}>"
  | .nullBlock => "%null_block"
  | .objectClass => "<Class:Object>"
  | .closure id => s!"closure<{id.text}>"
  | .var v => v.text

namespace Operand

mutual

def text : Operand → String
  | .atom a => a.text
  | .hash pairs => "\x7b" ++ ", ".intercalate (pairTexts pairs) ++ "\x7d"
  | .splat array => "*" ++ text array

def pairTexts : List (Operand × Operand) → List String
  | [] => []
  | (k, v) :: rest => s!"{text k} => {text v}" :: pairTexts rest

end

/-- Operands between commas. -/
def listText (os : List Operand) : String := ", ".intercalate (os.map text)

end Operand

end ScopeIR
