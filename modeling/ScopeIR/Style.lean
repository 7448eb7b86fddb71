/-! Text styles of terminals. -/

namespace ScopeIR

/-- The parameters of a select graphic rendition sequence. -/
structure Style where
  codes : String

namespace Style

def bold : Style := ⟨"1"⟩

def boldRed : Style := ⟨"1;31"⟩

def dimmed : Style := ⟨"2"⟩

def red : Style := ⟨"31"⟩

def green : Style := ⟨"32"⟩

def yellow : Style := ⟨"33"⟩

def blue : Style := ⟨"34"⟩

def magenta : Style := ⟨"35"⟩

def start (s : Style) : String := "\x1b[" ++ s.codes ++ "m"

def reset : String := "\x1b[0m"

/-- The text in this style if there is colour at all. A reset inside starts the style again. -/
def apply (s : Style) (coloured : Bool) (text : String) : String :=
  if coloured then s.start ++ (reset ++ s.start).intercalate (text.splitOn reset) ++ reset
  else text

end Style

end ScopeIR
