import ScopeIR.Proofs.Sealing
import ScopeIR.Proofs.VeiledActs

/-! Courses: what callers learn from each thing they do, and runs of callers that decide by all they
have learnt what to do next. Operations that are given bodies are callers of this kind too. -/

namespace ScopeIR

/-- What a caller learns from a doing. -/
inductive Answer where
  | done
  | made (scope : ScopeId)
  | label (l : Label)
  | index (scope : ScopeId) (i : UInt64)
  | opened (scope : ScopeId)
  | replied (scope : ScopeId) (reply : Reply)
  | failed (scope : ScopeId) (cause : BuildError)
  /-- There is no builder at the place. -/
  | missing
  /-- No caller may catch this. -/
  | fault (e : Fault)
  deriving DecidableEq

/-- There is nothing to go on with. -/
def Answer.ends : Answer → Bool
  | missing | fault _ => true
  | _ => false

namespace Workshop

open Session

variable {α : Type} {w w' : Workshop} {d : Doing}

def manage (w : Workshop) (x : RegistryM α) (answer : α → Answer) : Workshop × Answer :=
  match x w.registry with
  | .ok (a, registry) => ({ w with registry }, answer a)
  | .error e => (w, .fault e)

def hire (w : Workshop) (x : RegistryM Builder) (outer : List Nat) : Workshop × Answer :=
  match x w.registry with
  | .ok (builder, registry) =>
    (addWorker { w with registry } ⟨builder, outer, false⟩, .opened builder.scope)
  | .error e => (w, .fault e)

/-- Lets the worker at the place do its work. An error can be caught, other faults end it. -/
def employ (w : Workshop) (place : Nat) (k : Worker) (x : SessionM α) (answer : α → Answer)
    (stays : Builder → Option Worker) (refusing : Option α → List ScopeId) : Workshop × Answer :=
  match x (w.session k) with
  | (.ok a, t) =>
    ({ w.setWorker place (stays t.builder) with
      registry := t.registry
      refusing := refusing (some a) }, answer a)
  | (.error (.error cause), t) =>
    ({ w.setWorker place (stays t.builder) with
      registry := t.registry
      refusing := refusing none }, .failed k.builder.scope cause)
  | (.error e, t) => ({ w with registry := t.registry }, .fault e)

/-- Does one thing, or leaves what there is when that cannot be done. -/
def attempt (w : Workshop) : Doing → Workshop × Answer
  | .insertFlags scope flags => w.manage (RegistryM.insertFlags scope flags) fun _ => .done
  | .op (.newScope kind name file line parent) =>
    w.manage (RegistryM.newScope kind name file line parent) .made
  | .op (.newLabel scope stem) => w.manage (RegistryM.newLabel scope stem) .label
  | .op (.nextTemp scope) => w.manage (RegistryM.nextTemp scope) (.index scope)
  | .op (.setRefined scope refined) =>
    w.manage (RegistryM.setRefined scope refined) fun _ => .done
  | .op (.openRoot scope) => w.hire (openRoot scope) []
  | .op (.openInside place scope borrowsTemps) =>
    match w.worker? place with
    | some around =>
      w.hire (openBuilder scope borrowsTemps around.builder.coverage) (place :: around.outer)
    | none => (w, .missing)
  | .op (.act place a) =>
    match w.worker? place with
    | some k =>
      let refused := k.refused || a.refuses (w.session k)
      w.employ place k a.ask (.replied k.builder.scope)
        (fun builder => some { k with builder, refused }) fun _ => w.refusing
    | none => (w, .missing)
  | .op (.finish place) =>
    match w.worker? place with
    | some k =>
      w.employ place k finish (fun _ => .done) (fun _ => none) fun id? =>
        (if k.refused then id?.toList else []) ++ w.refusing
    | none => (w, .missing)
  | .op (.drop place) =>
    match w.worker? place with
    | some _ => (w.setWorker place none, .done)
    | none => (w, .missing)

/-- What is left when the caller can go on. -/
def left? (r : Workshop × Answer) : Option Workshop := if r.2.ends then none else some r.1

theorem left?_manage {x : RegistryM α} {answer : α → Answer}
    (hanswer : ∀ a, (answer a).ends = false) :
    left? (w.manage x answer) = (w.change x).map (·.2) := by
  unfold change manage
  cases x w.registry with
  | error e => rfl
  | ok r => exact if_neg (Bool.eq_false_iff.mp (hanswer r.1))

theorem left?_hire {x : RegistryM Builder} {outer : List Nat} :
    left? (w.hire x outer) =
      (w.change x).bind fun r => some (r.2.addWorker ⟨r.1, outer, false⟩) := by
  unfold change hire
  cases x w.registry <;> rfl

theorem left?_employ {place : ℕ} {k : Worker} {x : SessionM α} {answer : α → Answer}
    (stays : Builder → Option Worker) (refusing : Option α → List ScopeId)
    (hanswer : ∀ a, (answer a).ends = false) :
    left? (w.employ place k x answer stays refusing) = (settled x (w.session k)).bind fun r =>
      some { w.setWorker place (stays r.2.builder) with
        registry := r.2.registry
        refusing := refusing r.1 } := by
  unfold settled employ
  rcases x (w.session k) with ⟨(_ | _ | _ | _) | a, t⟩
  case ok => exact if_neg (Bool.eq_false_iff.mp (hanswer a))
  all_goals rfl

/-- The builder that the doing needs must be there. -/
theorem left?_atPlace {place : ℕ} {f : Worker → Workshop × Answer} :
    left? (match w.worker? place with | some k => f k | none => (w, .missing)) =
      (w.worker? place).bind fun k => left? (f k) := by
  cases w.worker? place <;> rfl

theorem settled_run (a : Act) (s : Session) :
    settled a.run s = (settled a.ask s).map fun r => (r.1.map fun _ => (), r.2) := by
  unfold settled
  rw [Act.run_eq, bind_apply]
  rcases a.ask s with ⟨(_ | _ | _ | _) | r, t⟩ <;> rfl

/-- Doings are done in the one way, whether the answer is known or not. -/
theorem perform_eq (w : Workshop) (d : Doing) : w.perform d = left? (w.attempt d) := by
  cases d with
  | insertFlags => exact (left?_manage fun _ => rfl).symm
  | op o =>
    cases o with
    | newScope | newLabel | nextTemp | setRefined => exact (left?_manage fun _ => rfl).symm
    | openRoot => exact left?_hire.symm
    | openInside => exact (left?_atPlace.trans (congrArg _ (funext fun _ => left?_hire))).symm
    | act place a =>
      refine (left?_atPlace.trans (congrArg _ (funext fun k => ?_))).symm
      dsimp only
      rw [left?_employ _ _ fun _ => rfl, settled_run]
      cases settled a.ask (w.session k) <;> rfl
    | finish =>
      refine (left?_atPlace.trans (congrArg _ (funext fun k => ?_))).symm
      exact left?_employ _ _ fun _ => rfl
    | drop place =>
      exact (left?_atPlace (f := fun _ => (w.setWorker place none, .done))).symm

end Workshop

/-- A caller, which decides by all answers so far what to do next. -/
abbrev Program := List Answer → Doing

/-- How far a caller has come. -/
structure Course where
  workshop : Workshop
  heard : List Answer := []

namespace Course

def ended (c : Course) : Bool := c.heard.getLast?.any Answer.ends

def next (p : Program) (c : Course) : Course :=
  if c.ended then c
  else
    let (workshop, answer) := c.workshop.attempt (p c.heard)
    { workshop, heard := c.heard ++ [answer] }

variable {p : Program} {c : Course}

theorem next_of_ended (h : c.ended) : c.next p = c := if_pos h

theorem next_of_not_ended (h : c.ended = false) : c.next p =
    ⟨(c.workshop.attempt (p c.heard)).1, c.heard ++ [(c.workshop.attempt (p c.heard)).2]⟩ := by
  unfold next
  rw [if_neg (Bool.eq_false_iff.mp h)]

theorem ended_concat {w : Workshop} {heard : List Answer} {o : Answer} :
    ended ⟨w, heard ++ [o]⟩ = o.ends := by
  unfold ended
  rw [List.getLast?_concat]
  rfl

theorem ended_next (h : c.ended = false) :
    (c.next p).ended = (c.workshop.attempt (p c.heard)).2.ends := by
  rw [next_of_not_ended h, ended_concat]

end Course

namespace Program

variable {p : Program} {w : Workshop}

/-- The caller's course after that many doings, or where it ended. -/
def course (p : Program) (w : Workshop) : ℕ → Course
  | 0 => { workshop := w }
  | n + 1 => (p.course w n).next p

theorem course_of_ended {m n : ℕ} (h : (p.course w m).ended) (hmn : m ≤ n) :
    p.course w n = p.course w m := by
  induction n, hmn using Nat.le_induction with
  | base => rfl
  | succ n _ ih => rw [course, ih, Course.next_of_ended h]

/-- Until it ends, a course is a run of doings. -/
theorem performAll_course {n : ℕ} (h : (p.course w n).ended = false) :
    ∃ ds, w.performAll ds = some (p.course w n).workshop := by
  induction n with
  | zero => exact ⟨[], rfl⟩
  | succ n ih =>
    by_cases hend : (p.course w n).ended
    · rw [course, Course.next_of_ended hend, hend] at h
      cases h
    · have hgoes := Bool.eq_false_iff.mpr hend
      obtain ⟨ds, hds⟩ := ih hgoes
      rw [course, Course.ended_next hgoes] at h
      refine ⟨ds ++ [p (p.course w n).heard], Workshop.performAll_concat hds ?_⟩
      rw [Workshop.perform_eq, Workshop.left?, h, course, Course.next_of_not_ended hgoes]
      rfl

end Program

end ScopeIR
