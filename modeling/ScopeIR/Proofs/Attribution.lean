import ScopeIR.Proofs.Motions
import ScopeIR.Proofs.Workers
import ScopeIR.Proofs.Lines
import ScopeIR.Proofs.RejectedExits
import ScopeIR.Proofs.Veil

/-! Which line an instruction belongs to. However notes of lines, emissions and the building of
ensure bodies follow each other, what joins a scope's own list stands behind the number of the line
that was noted last. -/

namespace ScopeIR

/-- The line that the instruction announces. -/
def Instr.line? : Instr → Option Int32
  | .lineNumber line _ => some line
  | _ => none

/-- The lines that are announced in the list, first ones first. -/
def announced (xs : List Instr) : List Int32 := xs.filterMap Instr.line?

/-- The lines among those noted that differ from the one before, which is `last` for the first. -/
def armings (last : Int32) : List Int32 → List Int32
  | [] => []
  | line :: lines => if line = last then armings last lines else line :: armings line lines

/-- The line noted last. Line -1 counts as noted before all others. -/
def lastNoted (noted : List Int32) : Int32 := noted.getLastD (-1)

@[simp] theorem announced_append (xs ys : List Instr) :
    announced (xs ++ ys) = announced xs ++ announced ys := List.filterMap_append

theorem Unlined.announced_eq {xs : List Instr} (h : Unlined xs) : announced xs = [] := by
  refine List.filterMap_eq_nil_iff.mpr fun i hi => ?_
  have hi := h i hi
  cases i <;> first | rfl | cases hi

theorem armings_concat (last line : Int32) (noted : List Int32) :
    armings last (noted ++ [line]) =
      armings last noted ++ if line = noted.getLastD last then [] else [line] := by
  induction noted generalizing last with
  | nil =>
    rw [List.nil_append, armings, armings, armings, List.nil_append]
    rfl
  | cons l noted ih =>
    rw [List.cons_append, armings, armings, ih, ih, List.getLastD_cons]
    split
    · next heq => rw [heq]
    · rfl

theorem lastNoted_of_forall {noted : List Int32} (h : ∀ line ∈ noted, line = -1) :
    lastNoted noted = -1 := by
  rcases List.eq_nil_or_concat' noted with rfl | ⟨lines, line, rfl⟩
  · rfl
  · rw [lastNoted, List.getLastD_concat]
    exact h line (List.mem_append_right _ (List.mem_singleton_self line))

/-- The trace of the line's first instruction, with the number that a listing gives the line. -/
structure TracePoint.Traces (t : TracePoint) (line : Int32) (module : Option Variable) : Prop where
  event : t.event = .line
  line : nextLine line = some t.line
  module : module = some t.module

/-- What is written for a pending line. If lines are traced, its number is directly followed by its
trace. -/
inductive Flushed (traced : Bool) (module : Option Variable) : Option Int32 → List Instr → Prop
  | nothing : Flushed traced module none []
  | plain {line : Int32} {coverage : Coverage} : traced = false →
    Flushed traced module (some line) [.lineNumber line coverage]
  | traced {line : Int32} {coverage : Coverage} {t : TracePoint} : traced = true →
    t.Traces line module →
    Flushed traced module (some line) [.lineNumber line coverage, .tracePoint t]

/-- Line numbers and traces stand only where one pending line was written in front of another
instruction. -/
inductive Spaced (traced : Bool) (module : Option Variable) : List Instr → Prop
  | nil : Spaced traced module []
  | cons {pending : Option Int32} {flushed : List Instr} {i : Instr} {xs : List Instr} :
    Flushed traced module pending flushed → i.isLine = false → Spaced traced module xs →
    Spaced traced module (flushed ++ i :: xs)

/-- The instructions of `new`, which stands behind `old`, are behind the number of the line noted
last, unless no line but -1 was noted at all. -/
def BehindLine (noted : List Int32) (old new : List Instr) : Prop :=
  ∀ before i after, new = before ++ i :: after → i.isLine = false →
    (∀ line ∈ noted, line = -1) ∨ (announced (old ++ before)).getLast? = some (lastNoted noted)

section Lists

variable {traced : Bool} {module module' : Option Variable} {pending : Option Int32}
  {noted : List Int32} {xs ys old new : List Instr} {i : Instr}

theorem TracePoint.Traces.mono {t : TracePoint} {line : Int32} (h : t.Traces line module)
    (hmodule : module = none ∨ module' = module) : t.Traces line module' where
  event := h.event
  line := h.line
  module := by
    rcases hmodule with hnone | heq
    · cases hnone.symm.trans h.module
    · rw [heq, h.module]

theorem Flushed.mono (h : Flushed traced module pending xs)
    (hmodule : module = none ∨ module' = module) : Flushed traced module' pending xs := by
  cases h with
  | nothing => exact .nothing
  | plain htraced => exact .plain htraced
  | traced htraced ht => exact .traced htraced (ht.mono hmodule)

theorem Flushed.isLine (h : Flushed traced module pending xs) : ∀ i ∈ xs, i.isLine := by
  cases h with
  | nothing => exact fun _ hi => nomatch hi
  | plain => exact fun _ hi => List.mem_singleton.mp hi ▸ rfl
  | traced =>
    intro i hi
    rcases List.mem_cons.mp hi with rfl | hi
    · rfl
    · exact List.mem_singleton.mp hi ▸ rfl

theorem Flushed.announced_eq (h : Flushed traced module pending xs) :
    announced xs = pending.toList := by
  cases h <;> rfl

namespace Spaced

theorem mono (h : Spaced traced module xs) (hmodule : module = none ∨ module' = module) :
    Spaced traced module' xs := by
  induction h with
  | nil => exact .nil
  | cons hflushed hi _ ih => exact .cons (hflushed.mono hmodule) hi ih

theorem append (h : Spaced traced module xs) (h' : Spaced traced module ys) :
    Spaced traced module (xs ++ ys) := by
  induction h with
  | nil => exact h'
  | cons hflushed hi _ ih =>
    rw [List.append_assoc, List.cons_append]
    exact .cons hflushed hi ih

end Spaced

namespace BehindLine

theorem nil : BehindLine noted old [] := by
  intro before i after heq
  exact absurd heq.symm (List.append_ne_nil_of_right_ne_nil _ (List.cons_ne_nil _ _))

theorem append (h : BehindLine noted old xs) (h' : BehindLine noted (old ++ xs) ys) :
    BehindLine noted old (xs ++ ys) := by
  intro before i after heq hi
  rcases List.append_eq_append_iff.mp heq with ⟨zs, rfl, hys⟩ | ⟨zs, hxs, hafter⟩
  · rw [← List.append_assoc]
    exact h' zs i after hys hi
  · cases zs with
    | nil =>
      have hys := h' [] i after hafter.symm hi
      rwa [List.append_nil, hxs, List.append_nil] at hys
    | cons j zs =>
      obtain ⟨rfl, -⟩ := List.cons.inj hafter
      exact h before i zs hxs hi

theorem of_isLine (h : ∀ i ∈ xs, i.isLine) : BehindLine noted old xs := by
  rintro before i after rfl hi
  rw [h i (List.mem_append_right _ List.mem_cons_self)] at hi
  cases hi

theorem single
    (h : (∀ line ∈ noted, line = -1) ∨ (announced old).getLast? = some (lastNoted noted)) :
    BehindLine noted old [i] := by
  intro before j after heq _
  cases before with
  | nil => rwa [List.append_nil]
  | cons k before =>
    have hnil := (List.cons.inj heq).2.symm
    exact absurd hnil (List.append_ne_nil_of_right_ne_nil _ (List.cons_ne_nil _ _))

/-- What is put in front announces nothing. -/
theorem of_front (hxs : Unlined xs) (h : BehindLine noted (xs ++ old) new) :
    BehindLine noted old new := by
  intro before i after heq hi
  have h := h before i after heq hi
  rwa [List.append_assoc, announced_append, hxs.announced_eq, List.nil_append] at h

end BehindLine

end Lists

/-- The lines of the builder are as they should be after these notes: at most the one noted last is
pending, each number in the list is there for a note of its own that changed the line, and if
nothing is pending, the last number in the list gives the line noted last. -/
structure Builder.Attributes (traced : Bool) (noted : List Int32) (b : Builder) : Prop where
  last : b.line.last = lastNoted noted
  pending : ∀ line ∈ b.line.pending, line = lastNoted noted
  written : (announced b.instrs.toList ++ b.line.pending.toList).Sublist (armings (-1) noted)
  current : b.line.pending = none →
    (∀ line ∈ noted, line = -1) ∨
      (announced b.instrs.toList).getLast? = some (lastNoted noted)
  spaced : Spaced traced b.currentModule b.instrs.toList
  holds : b.Holds fun i => i.isLine = false

namespace Builder.Attributes

variable {traced : Bool} {noted : List Int32} {b c : Builder} {i : Instr}

theorem of_same (h : b.Attributes traced noted) (hinstrs : c.instrs = b.instrs)
    (hline : c.line = b.line) (hmodule : b.currentModule = none ∨ c.currentModule = b.currentModule)
    (hholds : c.Holds fun i => i.isLine = false) : c.Attributes traced noted where
  last := hline ▸ h.last
  pending := hline ▸ h.pending
  written := by rw [hinstrs, hline]; exact h.written
  current := by rw [hinstrs, hline]; exact h.current
  spaced := by rw [hinstrs]; exact h.spaced.mono hmodule
  holds := hholds

theorem fresh (hinstrs : b.instrs = #[]) (hline : b.line = .fresh)
    (hholds : b.Holds fun i => i.isLine = false) : b.Attributes traced [] where
  last := by rw [hline]; rfl
  pending := by
    rw [hline]
    exact fun _ h => nomatch h
  written := by rw [hinstrs, hline]; exact .refl _
  current _ := .inl fun _ h => absurd h List.not_mem_nil
  spaced := by rw [hinstrs]; exact .nil
  holds := hholds

theorem prepend (h : b.Attributes traced noted) (hi : i.isLine = false)
    (hinstrs : c.instrs.toList = i :: b.instrs.toList) (hline : c.line = b.line)
    (hmodule : c.currentModule = b.currentModule) (hholds : c.Holds fun i => i.isLine = false) :
    c.Attributes traced noted := by
  have hsame : announced c.instrs.toList = announced b.instrs.toList := by
    rw [hinstrs, ← List.singleton_append, announced_append,
      Unlined.announced_eq (unlined_cons.mpr ⟨hi, .nil⟩), List.nil_append]
  refine ⟨hline ▸ h.last, hline ▸ h.pending, ?_, ?_, ?_, hholds⟩
  · rw [hsame, hline]
    exact h.written
  · rw [hsame, hline]
    exact h.current
  · rw [hinstrs, hmodule]
    exact .cons .nothing hi h.spaced

/-- A note of the line that was noted last changes nothing. -/
theorem note (h : b.Attributes traced noted) (line : Int32) :
    Attributes traced (noted ++ [line]) { b with line := b.line.note line } := by
  have hlast : lastNoted (noted ++ [line]) = line := List.getLastD_concat
  have harmings : armings (-1) (noted ++ [line]) =
      armings (-1) noted ++ if line = b.line.last then [] else [line] := by
    rw [armings_concat, h.last]
    rfl
  by_cases hsame : line = b.line.last
  · have heq : line = lastNoted noted := hsame.trans h.last
    rw [if_pos hsame, List.append_nil] at harmings
    have hnote : b.line.note line = b.line := if_pos hsame
    rw [hnote]
    refine ⟨by rw [hlast, hsame], fun l hl => ?_, harmings ▸ h.written, fun hnone => ?_, h.spaced,
      h.holds⟩
    · rw [hlast, heq]
      exact h.pending l hl
    · rw [hlast]
      rcases h.current hnone with hall | hcurrent
      · exact .inl (List.forall_mem_append.mpr ⟨hall, List.forall_mem_singleton.mpr
          (heq.trans (lastNoted_of_forall hall))⟩)
      · exact .inr (heq ▸ hcurrent)
  · have hnote : b.line.note line = ⟨some line, line⟩ := if_neg hsame
    rw [if_neg hsame] at harmings
    rw [hnote]
    refine ⟨hlast.symm, fun l hl => ?_, ?_, fun hnone => ?_, h.spaced, h.holds⟩
    · rw [hlast]
      exact (Option.some.inj hl).symm
    · rw [harmings]
      exact ((List.sublist_append_left _ _).trans h.written).append (.refl _)
    · cases hnone

/-- Emitting writes what is pending. -/
theorem emit {flushed : List Instr} (h : b.Attributes traced noted) (hi : i.isLine = false)
    (hflushed : Flushed traced c.currentModule b.line.pending flushed)
    (hinstrs : c.instrs.toList = b.instrs.toList ++ (flushed ++ [i]))
    (hline : c.line = { b.line with pending := none })
    (hmodule : b.currentModule = none ∨ c.currentModule = b.currentModule)
    (hholds : c.Holds fun i => i.isLine = false) :
    c.Attributes traced noted ∧ BehindLine noted b.instrs.toList (flushed ++ [i]) := by
  have hnew : announced c.instrs.toList = announced b.instrs.toList ++ b.line.pending.toList := by
    rw [hinstrs, announced_append, announced_append, hflushed.announced_eq,
      Unlined.announced_eq (unlined_cons.mpr ⟨hi, .nil⟩), List.append_nil]
  have hcurrent : (∀ line ∈ noted, line = -1) ∨
      (announced b.instrs.toList ++ b.line.pending.toList).getLast? = some (lastNoted noted) := by
    cases hpending : b.line.pending with
    | none =>
      rw [Option.toList_none, List.append_nil]
      exact h.current hpending
    | some line =>
      rw [Option.toList_some, List.getLast?_concat, h.pending line hpending]
      exact .inr rfl
  constructor
  · refine ⟨by rw [hline]; exact h.last, ?_, ?_, fun _ => by rwa [hnew], ?_, hholds⟩
    · rw [hline]
      exact fun _ hl => nomatch hl
    · rw [hnew, hline, Option.toList_none, List.append_nil]
      exact h.written
    · rw [hinstrs]
      exact (h.spaced.mono hmodule).append (.cons hflushed hi .nil)
  · refine (BehindLine.of_isLine hflushed.isLine).append (.single ?_)
    rwa [announced_append, hflushed.announced_eq]

end Builder.Attributes

namespace Session

variable {traced : Bool} {noted : List Int32} {s t u : Session} {i : Instr} {P Q : Instr → Prop}

/-- The builder has the same list and lines, and once it has a variable for the module, that stays.
-/
structure Idles (s t : Session) : Prop where
  config : t.registry.config = s.registry.config
  instrs : t.builder.instrs = s.builder.instrs
  line : t.builder.line = s.builder.line
  module : s.builder.currentModule = none ∨ t.builder.currentModule = s.builder.currentModule

theorem Idles.refl (s : Session) : s.Idles s := ⟨rfl, rfl, rfl, .inr rfl⟩

theorem Idles.of_registry {g : Registry} (h : g.config = s.registry.config) :
    s.Idles { s with registry := g } := ⟨h, rfl, rfl, .inr rfl⟩

theorem idles_of_currentModuleVar {v : Variable} (h : s.Runs currentModuleVar v t) :
    s.Idles t ∧ t.builder.currentModule = some v ∧
      t.builder.closureStart = s.builder.closureStart := by
  obtain ⟨hmodule, rfl⟩ | ⟨hnone, n, g, hn, rfl, rfl⟩ := runs_currentModuleVar h
  · exact ⟨.refl t, hmodule, rfl⟩
  · exact ⟨⟨(Registry.runs_nextTemp hn).1.config, rfl, rfl, .inl hnone⟩, rfl, rfl⟩

/-- What a flush adds to the scope's own list. -/
structure PutsLines (s t : Session) (xs : List Instr) : Prop where
  config : t.registry.config = s.registry.config
  flushed : Flushed s.registry.config.fullTrace t.builder.currentModule s.builder.line.pending xs
  instrs : t.builder.instrs.toList = s.builder.instrs.toList ++ xs
  line : t.builder.line = { s.builder.line with pending := none }
  closureStart : t.builder.closureStart = s.builder.closureStart
  module : s.builder.currentModule = none ∨ t.builder.currentModule = s.builder.currentModule

theorem putsLines_of_flushLine {v : Unit} (h : s.Runs flushLine v t) :
    ∃ flushed, s.PutsLines t flushed := by
  cases flushing_of_flushLine h with
  | idle hnone =>
    refine ⟨[], rfl, hnone ▸ .nothing, (List.append_nil _).symm, ?_, rfl, .inr rfl⟩
    rw [← hnone]
  | @plain line hline htraces =>
    refine ⟨[.lineNumber line s.builder.coverage], rfl, ?_, Array.toList_push, rfl, rfl, .inr rfl⟩
    rw [hline]
    exact .plain htraces
  | @traced line u point hline htraces hmodule hevent hnext =>
    obtain ⟨hidles, hsome, hstart⟩ := idles_of_currentModuleVar hmodule
    refine ⟨[.lineNumber line s.builder.coverage, .tracePoint point], hidles.config, ?_, ?_,
      hidles.line, hstart, hidles.module⟩
    · rw [hline]
      exact .traced htraces ⟨hevent, hnext, hsome⟩
    · simp only [lined, announce, Builder.append, Array.toList_push, hidles.instrs,
        List.append_assoc]
      rfl

theorem putsLines_of_emit {v : Unit} (h : s.Runs (emit i) v t) (hs : s.builder.ensureBodies = []) :
    ∃ u xs, s.PutsLines u xs ∧ t = u.announce u.builder.instrs.size i (u.builder.append i) := by
  obtain ⟨u, hflush, ht⟩ := (runs_emit_list hs).mp h
  obtain ⟨xs, hxs⟩ := putsLines_of_flushLine hflush
  exact ⟨u, xs, hxs, ht⟩

theorem closureStart_of_emit {v : Unit} (h : s.Runs (emit i) v t) :
    t.builder.closureStart = s.builder.closureStart := by
  cases hs : s.builder.ensureBodies with
  | nil =>
    obtain ⟨u, xs, hlines, rfl⟩ := putsLines_of_emit h hs
    exact hlines.closureStart
  | cons frame frames => rw [(runs_emit_body hs).mp h]

/-- To the builder's list `front` was added in front and `back` at the end. What came to the end
follows the line noted last, and the lines are as they should be. -/
structure Puts (noted : List Int32) (s t : Session) (front back : List Instr) : Prop where
  config : t.registry.config = s.registry.config
  list : t.builder.instrs.toList = front ++ s.builder.instrs.toList ++ back
  unlined : Unlined front
  behind : BehindLine noted s.builder.instrs.toList back
  attributes : t.builder.Attributes s.registry.config.fullTrace noted

namespace Puts

variable {front front' back back' : List Instr}

theorem trans (h : s.Puts noted t front back) (h' : t.Puts noted u front' back') :
    s.Puts noted u (front' ++ front) (back ++ back') where
  config := h'.config.trans h.config
  list := by simp only [h'.list, h.list, List.append_assoc]
  unlined := unlined_append.mpr ⟨h'.unlined, h.unlined⟩
  behind := by
    refine h.behind.append (.of_front h.unlined ?_)
    rw [← List.append_assoc, ← h.list]
    exact h'.behind
  attributes := h.config ▸ h'.attributes

theorem of_idles (hs : s.builder.Attributes s.registry.config.fullTrace noted) (h : s.Idles t)
    (hholds : t.builder.Holds fun i => i.isLine = false) : s.Puts noted t [] [] where
  config := h.config
  list := by rw [h.instrs, List.nil_append, List.append_nil]
  unlined := .nil
  behind := .nil
  attributes := hs.of_same h.instrs h.line h.module hholds

end Puts

theorem puts_of_emit {v : Unit} (hs : s.builder.Attributes s.registry.config.fullTrace noted)
    (hi : i.isLine = false) (h : s.Runs (emit i) v t) : ∃ back, s.Puts noted t [] back := by
  have hholds := holds_of_emit hi h hs.holds
  cases hbodies : s.builder.ensureBodies with
  | nil =>
    obtain ⟨u, xs, hlines, rfl⟩ := putsLines_of_emit h hbodies
    have hlist : (u.builder.append i).instrs.toList = s.builder.instrs.toList ++ (xs ++ [i]) := by
      rw [Builder.append, Array.toList_push, hlines.instrs, List.append_assoc]
    obtain ⟨hattributes, hbehind⟩ := hs.emit (c := u.builder.append i) hi hlines.flushed hlist
      hlines.line hlines.module hholds
    exact ⟨xs ++ [i], hlines.config, hlist, .nil, hbehind, hattributes⟩
  | cons frame frames =>
    obtain rfl := (runs_emit_body hbodies).mp h
    exact ⟨[], .of_idles hs ⟨rfl, rfl, rfl, .inr rfl⟩ hholds⟩

theorem puts_of_prepend {v : Unit} (hs : s.builder.Attributes s.registry.config.fullTrace noted)
    (hi : i.isLine = false) (h : s.Runs (prepend i) v t) : s.Puts noted t [i] [] := by
  obtain rfl := runs_prepend.mp h
  have hlist : (s.builder.prepend i).instrs.toList = i :: s.builder.instrs.toList := by
    rw [Builder.prepend, Array.toList_append, List.singleton_append]
  refine ⟨rfl, ?_, unlined_cons.mpr ⟨hi, .nil⟩, .nil, hs.prepend hi hlist rfl rfl hs.holds⟩
  rw [List.append_nil]
  exact hlist

theorem idles_of_temp {v : Variable} (h : s.Runs temp v t) : s.Idles t := by
  obtain ⟨n, g, x, hn, -, -, rfl⟩ := runs_temp h
  exact .of_registry (Registry.runs_nextTemp hn).1.config

theorem idles_of_yieldClosureVar {v : Variable} (h : s.Runs yieldClosureVar v t) : s.Idles t := by
  obtain ⟨-, rfl⟩ | ⟨-, u, htemp, rfl⟩ := runs_yieldClosureVar h
  · exact ⟨rfl, rfl, rfl, .inr rfl⟩
  · have hu := idles_of_temp htemp
    exact ⟨hu.config, hu.instrs, hu.line, hu.module⟩

theorem puts_of_motion (hQ : ∀ i, Q i → i.isLine = false)
    (hs : s.builder.Attributes s.registry.config.fullTrace noted)
    (h : s.Motion (fun i => i.isLine = false) Q t) :
    ∃ front back, s.Puts noted t front back ∧ ∀ i ∈ front, Q i := by
  have hidles (hidles : s.Idles t) :
      ∃ front back, s.Puts noted t front back ∧ ∀ i ∈ front, Q i :=
    ⟨[], [], .of_idles hs hidles (h.holds hs.holds), fun _ h => absurd h List.not_mem_nil⟩
  cases h with
  | label h =>
    obtain ⟨g, hg, rfl⟩ := runs_newLabelNamed.mp h
    exact hidles (.of_registry (Registry.runs_newLabel hg).1.config)
  | temp h => exact hidles (idles_of_temp h)
  | module h => exact hidles (idles_of_currentModuleVar h).1
  | yields h => exact hidles (idles_of_yieldClosureVar h)
  | records _ h =>
    obtain ⟨g, hg, rfl⟩ := runs_liftM.mp h
    exact hidles (.of_registry (Registry.growsTo_of_record hg).config)
  | registers h =>
    obtain ⟨g, hg, rfl⟩ := runs_addClosure.mp h
    exact hidles (.of_registry (Registry.growsTo_of_addClosure hg).config)
  | starts h =>
    obtain ⟨-, rfl⟩ := runs_newClosureStart.mp h
    exact hidles ⟨rfl, rfl, rfl, .inr rfl⟩
  | emits hi h =>
    obtain ⟨back, hback⟩ := puts_of_emit hs hi h
    exact ⟨[], back, hback, fun _ h => absurd h List.not_mem_nil⟩
  | prepends hi h =>
    exact ⟨[_], [], puts_of_prepend hs (hQ _ hi) h, List.forall_mem_singleton.mpr hi⟩
  | arranges hsame _ =>
    exact hidles ⟨rfl, hsame.instrs, hsame.line, .inr hsame.currentModule⟩

theorem puts_of_motions (hQ : ∀ i, Q i → i.isLine = false)
    (hs : s.builder.Attributes s.registry.config.fullTrace noted)
    (h : s.Motions (fun i => i.isLine = false) Q t) :
    ∃ front back, s.Puts noted t front back ∧ ∀ i ∈ front, Q i := by
  induction h with
  | refl => exact ⟨[], [], .of_idles hs (.refl s) hs.holds, fun _ h => absurd h List.not_mem_nil⟩
  | tail _ hstep ih =>
    obtain ⟨front, back, hputs, hfront⟩ := ih
    obtain ⟨front', back', hputs', hfront'⟩ :=
      puts_of_motion hQ (hputs.config ▸ hputs.attributes) hstep
    exact ⟨front' ++ front, back ++ back', hputs.trans hputs',
      List.forall_mem_append.mpr ⟨hfront', hfront⟩⟩

/-- What puts nothing in front adds to the end. -/
theorem puts_behind (hs : s.builder.Attributes s.registry.config.fullTrace noted)
    (h : s.Motions (fun i => i.isLine = false) (fun _ => False) t) :
    ∃ back, s.Puts noted t [] back := by
  obtain ⟨front, back, hputs, hfront⟩ := puts_of_motions (fun _ h => h.elim) hs h
  obtain rfl := List.eq_nil_iff_forall_not_mem.mpr hfront
  exact ⟨back, hputs⟩

theorem puts_of_emitAtBeginning {v : Option Unit} (hi : i.isLine = false)
    (hs : s.builder.Attributes s.registry.config.fullTrace noted)
    (h : Workshop.settled (emitAtBeginning i) s = some (v, t)) :
    s.Puts noted t (if s.builder.ensureBodies = [] then [i] else []) [] := by
  have hperforms : Performs (fun i => i.isLine = false) (fun i => i.isLine = false)
      (emitAtBeginning i) := .emitAtBeginning hi hi
  have hholds := (hperforms hs.holds h).holds hs.holds
  obtain ⟨_, _, hcurrent, h⟩ := Uncatchable.current.runs h
  obtain ⟨rfl, rfl⟩ := runs_current.mp hcurrent
  cases hbodies : s.builder.ensureBodies with
  | nil =>
    rw [hbodies] at h
    have hprepend : Uncatchable (prepend i) :=
      .bind .current fun _ => .bind .record fun _ => .updateBuilder
    obtain ⟨_, ht⟩ := hprepend.runs_of_settled h
    exact puts_of_prepend hs hi ht
  | cons frame frames =>
    rw [hbodies] at h
    obtain rfl := Workshop.eq_of_settled h
    exact .of_idles hs ⟨rfl, rfl, rfl, .inr rfl⟩ hholds

/-- The start label is put in front where there is none. -/
theorem puts_of_closureStart {l : Label}
    (hs : s.builder.Attributes s.registry.config.fullTrace noted) (h : s.Runs closureStart l t) :
    s.Puts noted t
      (if s.builder.closureStart = none then [.label s.builder.scope.startLabel] else []) [] := by
  obtain ⟨hsome, rfl⟩ | ⟨hnone, rfl, u, hstart, ht⟩ := runs_closureStart h
  · rw [if_neg (hsome ▸ Option.some_ne_none _)]
    exact .of_idles hs (.refl t) hs.holds
  · obtain ⟨-, rfl⟩ := runs_newClosureStart.mp hstart
    have hu : s.Puts noted { s with
        builder := { s.builder with closureStart := some s.builder.scope.startLabel } } [] [] :=
      .of_idles hs ⟨rfl, rfl, rfl, .inr rfl⟩ hs.holds
    rw [if_pos hnone]
    exact hu.trans (puts_of_prepend (v := ()) (hu.config ▸ hu.attributes) rfl (runs_prepend.mpr ht))

/-- The first redo of a block marks where it starts. -/
theorem puts_of_redo {v : Option Unit}
    (hs : s.builder.Attributes s.registry.config.fullTrace noted)
    (h : Workshop.settled redo s = some (v, t)) :
    ∃ back, s.Puts noted t (Act.redo.front s) back := by
  by_cases hmark : s.Unmarked
  · obtain ⟨hloops, hnone, x, hx, hkind⟩ := id hmark
    rw [Act.front, Act.marksStart, if_pos (decide_eq_true hmark)]
    obtain ⟨_, _, hcurrent, h⟩ := Uncatchable.current.runs h
    obtain ⟨rfl, rfl⟩ := runs_current.mp hcurrent
    rw [Builder.currentLoop, hloops] at h
    obtain ⟨y, _, hown, h⟩ := Uncatchable.ownScope.runs h
    obtain ⟨hy, rfl⟩ := runs_ownScope.mp hown
    obtain rfl := Option.some.inj (hy.symm.trans hx)
    rw [if_pos hkind] at h
    obtain ⟨_, u, hpoll, h⟩ := Uncatchable.emit.runs h
    obtain ⟨back, hu⟩ := puts_of_emit hs rfl hpoll
    obtain ⟨l, u', hstart, h⟩ := Uncatchable.closureStart.runs h
    have hfront := puts_of_closureStart (hu.config ▸ hu.attributes) hstart
    rw [closureStart_of_emit hpoll, (emits_of_emit hpoll).scope, if_pos hnone] at hfront
    have hu' := hu.trans hfront
    have hs' := hu'.config ▸ hu'.attributes
    obtain ⟨back', ht⟩ := puts_behind hs'
      (Performs.emit (P := fun i => i.isLine = false) rfl hs'.holds h)
    exact ⟨_, hu'.trans ht⟩
  · have hmade : s.Made (fun i => i.isLine = false) (fun _ => False) (fun _ => True) redo :=
      made_redo usual_not_line.lenient fun h => absurd h hmark
    have hfront : Act.redo.front s = [] := if_neg fun hmarks => hmark (of_decide_eq_true hmarks)
    rw [hfront]
    exact puts_behind hs (hmade.motions hs.holds h)

end Session

namespace Act

open Session

/-- What the operation puts in front of the scope's own list. -/
def fronted (s : Session) : Act → List Instr
  | emitAtBeginning i => if s.builder.ensureBodies = [] then [i] else []
  | a => a.front s

end Act

/-- What an operation leaves, if it is given no lines and traces and is not a note. -/
theorem Session.puts_of_act {a : Act} {noted : List Int32} {s t : Session} {v : Option Unit}
    (hnoted : a.noted? = none) (hgiven : Unlined a.given)
    (hs : s.builder.Attributes s.registry.config.fullTrace noted)
    (h : Workshop.settled a.run s = some (v, t)) : ∃ back, s.Puts noted t (a.fronted s) back := by
  have hplain (hprepends : ∀ i, ¬ a.MayPrepend i) (hfront : a.fronted s = []) :
      ∃ back, s.Puts noted t (a.fronted s) back := by
    rw [hfront]
    exact puts_behind hs (a.performs usual_not_line hnoted hgiven hprepends hs.holds h)
  cases a with
  | note => cases hnoted
  | emitAtBeginning i =>
    exact ⟨[], puts_of_emitAtBeginning (hgiven i (List.mem_singleton_self i)) hs h⟩
  | redo => exact puts_of_redo hs h
  | _ => exact hplain (fun _ => id) rfl

/-- The line that the builder at the place notes. -/
def Doing.noted? (place : Nat) : Doing → Option Int32
  | op (.act place' a) => if place' = place then a.noted? else none
  | _ => none

/-- The lines that the builder at the place notes, one after the other. -/
def notedAt (place : Nat) (ds : List Doing) : List Int32 := ds.filterMap (Doing.noted? place)

namespace Workshop

variable {w w' : Workshop} {p : Terms} {d : Doing} {ds : List Doing} {place : Nat} {k : Worker}

theorem Effect.config_eq (h : w.Effect p d w') : w'.registry.config = w.registry.config := by
  cases h with
  | manages _ _ hg | opens _ hg => exact hg.config_eq
  | acts _ hu | finishes _ hu | fails _ hu => exact hu.serves.config
  | drops => rfl

/-- The lines of the builder at the place are as they should be after what was done. -/
structure Attributed (settings : Config) (place : Nat) (ds : List Doing) (w : Workshop) : Prop where
  config : w.registry.config = settings
  vacant : w.workers.length ≤ place → notedAt place ds = []
  attributes {k : Worker} : (∀ a, .op (.act place a) ∈ ds → Unlined a.given) →
    w.worker? place = some k → k.builder.Attributes settings.fullTrace (notedAt place ds)

theorem notedAt_concat_of_ne (h : ∀ a, d ≠ .op (.act place a)) :
    notedAt place (ds ++ [d]) = notedAt place ds := by
  have hnone : d.noted? place = none := by
    unfold Doing.noted?
    split
    · next place' a =>
      refine if_neg ?_
      rintro rfl
      exact h a rfl
    · rfl
  rw [notedAt, List.filterMap_append, List.filterMap_cons_none hnone, List.filterMap_nil,
    List.append_nil, notedAt]

theorem notedAt_concat_act (a : Act) :
    notedAt place (ds ++ [.op (.act place a)]) = notedAt place ds ++ a.noted?.toList := by
  have hnoted : Doing.noted? place (.op (.act place a)) = a.noted? := if_pos rfl
  rw [notedAt, List.filterMap_append, notedAt, List.filterMap_cons, hnoted, List.filterMap_nil]
  cases a.noted? <;> rfl

theorem Attributed.perform {settings : Config} (hw : w.Attributed settings place ds)
    (hd : w.perform d = some w') (heffect : w.Effect p d w') :
    w'.Attributed settings place (ds ++ [d]) where
  config := heffect.config_eq.trans hw.config
  vacant hplace := by
    have hplace := heffect.length_le.trans hplace
    rw [notedAt_concat_of_ne, hw.vacant hplace]
    rintro a rfl
    obtain ⟨k, hk, -⟩ := Option.bind_eq_some_iff.mp hd
    exact absurd (lt_of_worker? hk) (Nat.not_lt.mpr hplace)
  attributes {k'} hgiven hk' := by
    have hold {k : Worker} := hw.attributes (k := k) fun a ha =>
      hgiven a (List.mem_append_left _ ha)
    cases turn_of_perform hd hk' with
    | opens hplace hopened hopen _ =>
      rw [notedAt_concat_of_ne (fun a h => by rw [h] at hopened; cases hopened),
        hw.vacant hplace.ge]
      obtain ⟨x, -, hb, -⟩ := Session.eq_of_openBuilder hopen
      exact .fresh (by rw [hb]) (by rw [hb]) (by rw [hb]; exact fun _ hf => nomatch hf)
    | rests hne hk =>
      rw [notedAt_concat_of_ne hne]
      exact hold hk
    | @acts k a v t hact hk ht hbuilder =>
      subst hact
      have hk := hold hk
      rw [notedAt_concat_act, hbuilder]
      cases hnoted : a.noted? with
      | none =>
        have hgiven := hgiven a (List.mem_append_right _ (List.mem_singleton_self _))
        obtain ⟨back, hputs⟩ := Session.puts_of_act hnoted hgiven (hw.config ▸ hk) ht
        rw [Option.toList_none, List.append_nil]
        exact hw.config ▸ hputs.attributes
      | some line =>
        cases a with
        | note line' =>
          cases hnoted
          obtain rfl := eq_of_settled ht
          exact hk.note line
        | _ => cases hnoted

theorem attributed_of_run {settings : Config}
    (hrun : (Workshop.empty settings).performAll ds = some w) (place : Nat) :
    w.Attributed settings place ds := by
  apply (run_of_effects (I := (Attributed settings place)) _ (.empty settings) _ hrun
    (honours_nothing _ _)).2
  · intro ds d w w' _ h _ hd heffect
    exact h.perform hd heffect
  · exact ⟨rfl, fun _ => rfl, fun _ hk => nomatch hk⟩

/-- In any run, a builder that is given no lines or traces of the caller's has its lines from the
notes alone. At most one is pending, and it is the one noted last; each number in the list is there
for a note of its own that changed the line; there is at most one in front of each other
instruction, and if lines are traced, its trace stands right behind it. Whatever the builder is told
next, what that adds at the end of the list stands behind the number of the line noted last, unless
no line but -1 was noted. -/
theorem attributes_of_run {settings : Config}
    (hrun : (Workshop.empty settings).performAll ds = some w)
    (hk : w.worker? place = some k) (hgiven : ∀ a, .op (.act place a) ∈ ds → Unlined a.given) :
    k.builder.Attributes settings.fullTrace (notedAt place ds) ∧
    ∀ (a : Act) v t, Unlined a.given → settled a.run (w.session k) = some (v, t) →
      ∃ back, t.builder.instrs.toList =
          a.fronted (w.session k) ++ k.builder.instrs.toList ++ back ∧
        BehindLine (notedAt place ds) k.builder.instrs.toList back := by
  have hw := attributed_of_run hrun place
  have hlines := hw.attributes hgiven hk
  refine ⟨hlines, fun a v t ha ht => ?_⟩
  cases hnoted : a.noted? with
  | none =>
    obtain ⟨back, hputs⟩ := Session.puts_of_act hnoted ha (hw.config ▸ hlines) ht
    exact ⟨back, hputs.list, hputs.behind⟩
  | some line =>
    cases a with
    | note line' =>
      obtain rfl := eq_of_settled ht
      exact ⟨[], (List.append_nil _).symm, .nil⟩
    | _ => cases hnoted

/-- A block notes a line, another one while an ensure body is built, and starts again. -/
def notesAroundBody : List Doing :=
  [.op (.newScope .method ⟨"m"⟩ "main.rb" 0 none),
    .op (.newScope .closure ⟨"_CLOSURE_"⟩ "main.rb" 1 (some ⟨0⟩)),
    .op (.openRoot ⟨1⟩), .op (.act 0 (.note 4)),
    .op (.act 0 (.enterEnsureBody
      ⟨⟨"LBL", 0⟩, ⟨"LBL", 1⟩, ⟨"LBL", 2⟩, ⟨"LBL", 3⟩, .unrescued, none, []⟩)),
    .op (.act 0 (.emit .nop)), .op (.act 0 (.note 6)), .op (.act 0 .exitEnsureBody),
    .op (.act 0 (.emitAtBeginning .nop)), .op (.act 0 (.emit .nop)), .op (.act 0 (.note 6)),
    .op (.act 0 .redo), .op (.act 0 (.note 9))]

theorem attributes_of_run_notesAroundBody :
    ∃ w ∈ (Workshop.empty { fullTrace := true }).performAll notesAroundBody,
      ∃ k ∈ w.worker? 0, k.builder.Attributes true [4, 6, 6, 9] ∧
        ∃ t back, settled Act.redo.run (w.session k) = some (some (), t) ∧
          t.builder.instrs.toList = k.builder.instrs.toList ++ back ∧
          BehindLine [4, 6, 6, 9] k.builder.instrs.toList back := by
  have hrun : ∃ w ∈ (Workshop.empty { fullTrace := true }).performAll notesAroundBody,
      ∃ k ∈ w.worker? 0, (Act.redo.fronted (w.session k)).isEmpty ∧
        ((settled Act.redo.run (w.session k)).bind (·.1)).isSome := by
    decide +kernel
  have hgiven : ∀ a, .op (.act 0 a) ∈ notesAroundBody → Unlined a.given := by
    intro a ha
    simp only [notesAroundBody, List.mem_cons, Doing.op.injEq, Op.act.injEq, reduceCtorEq, true_and,
      List.not_mem_nil, false_or, or_false] at ha
    rcases ha with rfl | rfl | rfl | rfl | rfl | rfl | rfl | rfl | rfl | rfl <;>
      first | exact Unlined.nil | exact unlined_cons.mpr ⟨rfl, .nil⟩
  obtain ⟨w, hw, k, hk, hfront, hredo⟩ := hrun
  obtain ⟨hlines, hnext⟩ := attributes_of_run hw hk hgiven
  obtain ⟨u, hu⟩ := Option.isSome_iff_exists.mp hredo
  obtain ⟨⟨v, t⟩, ht, rfl⟩ := Option.bind_eq_some_iff.mp hu
  obtain ⟨back, hlist, hbehind⟩ := hnext .redo (some u) t .nil ht
  rw [List.isEmpty_iff.mp hfront] at hlist
  exact ⟨w, hw, k, hk, hlines, t, back, ht, hlist, hbehind⟩

end Workshop

end ScopeIR
