import ScopeIR.File.Instr
import ScopeIR.Scope

/-! Files of built scopes. -/

namespace ScopeIR

/-- The scopes of one compilation, finished or not, with all that is known about them. -/
structure Archive where
  version : UInt32
  scopes : List Scope
  deriving DecidableEq

namespace File

open Codec

def scopeKind : Codec ScopeKind :=
  enum [.scriptBody, .moduleBody, .classBody, .metaClassBody, .method, .closure, .forBody,
    .evalScript]

def scopeFlags : Codec ScopeFlags := flags ScopeFlag

def scope : Codec Scope :=
  (pair scopeId <| pair scopeKind <| pair symbol <| pair text <| pair i32 <|
    pair (option scopeId) <| pair (list scopeId) <| pair (option u64) <| pair bool <|
    pair scopeFlags <| pair u64 <| pair u64 <| option (list instr)).map
    (fun (id, kind, name, file, line, parent, closures, closureId, refined, flags, nextLabel,
        nextTemp, instrs) =>
      { id, kind, name, file, line, parent, closures, closureId, refined, flags, nextLabel,
        nextTemp, instrs })
    (fun s => (s.id, s.kind, s.name, s.file, s.line, s.parent, s.closures, s.closureId, s.refined,
      s.flags, s.nextLabel, s.nextTemp, s.instrs))

def archive : Codec Archive :=
  (pair u32 (list scope)).map (fun (version, scopes) => ⟨version, scopes⟩)
    (fun a => (a.version, a.scopes))

end File

namespace Archive

def currentVersion : UInt32 := 1

def ofScopes (scopes : List Scope) : Archive := ⟨currentVersion, scopes⟩

def write (a : Archive) : List UInt8 := File.archive.write a

/-- The version is checked after all else. Bytes behind the archive are left over. -/
def read : File.Reader Archive := do
  let a ← File.archive.read
  if a.version ≠ currentVersion then throw (.unsupportedVersion a.version)
  return a

end Archive

end ScopeIR
