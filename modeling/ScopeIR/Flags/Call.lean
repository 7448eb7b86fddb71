import ScopeIR.Flags.Basic

/-! What a call site passes besides its positional arguments. -/

namespace ScopeIR

inductive CallFlag where
  | keyword
  | keywordRest
  | splats
  deriving DecidableEq

namespace CallFlag

def name : CallFlag → String
  | .keyword => "KEYWORD"
  | .keywordRest => "KEYWORD_REST"
  | .splats => "SPLATS"

def all : List CallFlag := [.keyword, .keywordRest, .splats]

instance : Flag CallFlag where
  width := 8
  members := all
  position := CallFlag.ctorIdx
  name := name

end CallFlag

abbrev CallFlags := FlagSet CallFlag

end ScopeIR
