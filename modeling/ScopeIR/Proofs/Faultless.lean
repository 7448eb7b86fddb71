import ScopeIR.Proofs.Enacting

/-! Runs in which callers keep all that they promise. Nothing stops them but a number at the end of
its word. -/

namespace ScopeIR

/-- The rescuers, innermost first, down to that of unrescued code. -/
def Builder.rescuerStack (b : Builder) : List Label := b.rescuers ++ [.unrescued]

namespace Builder

variable {b : Builder}

theorem head?_rescuerStack : b.rescuerStack.head? = some b.rescuer := by
  unfold rescuerStack rescuer
  cases b.rescuers <;> rfl

theorem getLast?_rescuerStack : b.rescuerStack.getLast? = some .unrescued := by
  unfold rescuerStack
  exact List.getLast?_concat

end Builder

namespace Session

variable {α β : Type} {s t : Session}

/-- The last rescuer is never popped. -/
theorem rescuerStack_of_popRescuer {label? : Option Label} (h : s.Runs popRescuer label? t) :
    (label?, t.builder.rescuerStack) = if 1 < s.builder.rescuerStack.length then
      (s.builder.rescuerStack.head?, s.builder.rescuerStack.tail)
    else (none, s.builder.rescuerStack) := by
  obtain ⟨rfl, rfl⟩ := runs_popRescuer.mp h
  unfold Builder.rescuerStack
  cases s.builder.rescuers with
  | nil => rfl
  | cons label labels =>
    rw [if_pos (by simp)]
    rfl

theorem builder_bind {x : SessionM α} {f : α → SessionM β}
    (hx : (x s).2.builder = s.builder)
    (hf : ∀ {a t}, s.Runs x a t → (f a t).2.builder = t.builder) :
    ((x >>= f) s).2.builder = s.builder := by
  rw [bind_apply]
  rcases hr : x s with ⟨e | a, t⟩ <;> rw [hr] at hx
  · exact hx
  · exact (hf hr).trans hx

theorem builder_liftM {x : RegistryM α} : ((liftM x : SessionM α) s).2.builder = s.builder := by
  rw [liftM_apply]
  cases x s.registry <;> rfl

/-- A builder rests while one inside of it works. -/
theorem builder_child {kind : ScopeKind} {name : Symbol} {method : Option Symbol}
    {body : SessionM Unit} :
    ((BuildT.child kind name method body : SessionM ScopeId) s).2.builder = s.builder := by
  refine builder_bind rfl fun _ => builder_bind builder_liftM fun _ => ?_
  refine builder_bind builder_liftM fun _ => builder_bind rfl fun _ => ?_
  exact builder_bind builder_liftM fun _ => rfl

end Session

theorem Session.excused_finish {s : Session} {e : Fault} (hs : s.Sound ⟨True, True⟩)
    (he : (finish s).1 = .error e) : e.Excused (finish s).2.registry := by
  have hclosing := closing_finish hs
  generalize finish s = outcome at hclosing he
  cases hclosing with
  | fails _ hexcused =>
    cases he
    exact hexcused trivial trivial
  | stores => cases he

namespace Workshop

open Session

variable {α : Type} {p : Terms} {w w' w₀ : Workshop} {d : Doing} {ds : List Doing} {e : Fault}
  {g : Registry}

/-- What ends all building although promises are kept is a number at the end of its word. -/
theorem end_of_halt (hw : w.Staffed ⟨True, True⟩) (hd : d.Keeps ⟨True, True⟩ w)
    (h : w.halt? d = some (e, g)) : e = .overflow ∧ g.Full := by
  have hnamed := hd.names trivial
  have hend : w.registry.Full → Fault.overflow = .overflow ∧ w.registry.Full := fun h => ⟨rfl, h⟩
  have hchange : ∀ {α : Type} {x : RegistryM α}, x.halt? w.registry = some (e, g) →
      w.registry.Blames (fun e => e = .overflow ∧ w.registry.Full) x → e = .overflow ∧ g.Full := by
    intro α x hx hblames
    unfold RegistryM.halt? at hx
    cases hr : x w.registry with
    | ok r =>
      rw [hr] at hx
      cases hx
    | error e' =>
      rw [hr] at hx
      cases hx
      exact hblames e hr
  have hsettle : ∀ {α : Type} {x : SessionM α} {s : Session}, Session.halt? x s = some (e, g) →
      (∀ e, (x s).1 = .error e → e.Excused (x s).2.registry) → e = .overflow ∧ g.Full := by
    intro α x s hx hexcused
    unfold Session.halt? at hx
    rcases hr : x s with ⟨(_ | _ | _ | _) | a, t⟩ <;> rw [hr] at hx hexcused <;> cases hx
    · exact ⟨rfl, hexcused .overflow rfl⟩
    · exact (hexcused _ rfl).elim
    · exact (hexcused _ rfl).elim
  cases d with
  | insertFlags id flags =>
    have hopen : ¬ w.registry.Finished id := hd.flags trivial id rfl
    exact hchange h (Registry.blames_insertFlags (hnamed id List.mem_cons_self) hopen)
  | op o =>
    cases o with
    | newScope kind name file line parent =>
      have hparent : ∀ p ∈ parent, w.registry.Has p := fun p hp =>
        hnamed p (Option.mem_toList.mpr hp)
      have hsize : UInt64.size ≤ w.registry.scopes.size → w.registry.Full := fun hsize =>
        .inl ((hw.formed trivial).size_le.antisymm hsize)
      exact hchange h (Registry.blames_newScope hend (fun h => hend (hsize h)) hparent)
    | newLabel id => exact hchange h (Registry.blames_newLabel hend (hnamed id List.mem_cons_self))
    | nextTemp id => exact hchange h (Registry.blames_nextTemp hend (hnamed id List.mem_cons_self))
    | setRefined id => exact hchange h (Registry.blames_updateScope (hnamed id List.mem_cons_self))
    | openRoot id =>
      refine hchange (x := openRoot id) h (Registry.blames_get_bind ?_)
      exact Registry.blames_openBuilder (hnamed id List.mem_cons_self)
    | openInside place id =>
      obtain ⟨k, -, h⟩ := Option.bind_eq_some_iff.mp h
      exact hchange h (Registry.blames_openBuilder (hnamed id List.mem_cons_self))
    | act place a =>
      obtain ⟨k, hk, h⟩ := Option.bind_eq_some_iff.mp h
      have hact : (k, a) ∈ Doing.act? w (.op (.act place a)) :=
        Option.map_eq_some_iff.mpr ⟨k, hk, rfl⟩
      refine hsettle h fun _ he => ?_
      exact (Act.proceeds (hd.act _ hact)).excused trivial trivial (hw.session hk) he
    | finish place =>
      obtain ⟨k, hk, h⟩ := Option.bind_eq_some_iff.mp h
      exact hsettle h fun _ he => excused_finish (hw.session hk) he
    | drop => cases h

/-- Nor does anything else end an action that is a run of doings. -/
theorem end_of_enacts {α : Type} {place : Nat} {s t : Session} {x : SessionM α}
    (hw : w.Ready ⟨True, True⟩) (hs : w.IsAt place s) (hx : w.Enacts ⟨True, True⟩ place s x)
    (h : x s = (.error e, t)) : (∃ cause, e = .error cause) ∨ e = .overflow ∧ t.registry.Full := by
  have henacted := hx hw hs
  rw [h] at henacted
  cases henacted with
  | settles hcause => exact .inl (hcause e rfl)
  | halts _ hreaches hd hhalt => exact .inr (end_of_halt (hreaches.ready hw).staffed hd hhalt)

theorem ready_empty (config : Config) : (Workshop.empty config).Ready p where
  staffed := .empty config
  ordered _ _ h := nomatch h

/-- In a run whose callers keep all that they promise, every doing of a builder that is there can be
done, as long as no number is at the end of its word, and so can all that bodies are put together
to. Every scope that is there can be left outwards. There is always a rescuer, below all of which
lies that of unrescued code, and the name of the method whose block is built is still there when the
block is done. -/
theorem faultless_of_run {config : Config} (hrun : (Workshop.empty config).performAll ds = some w)
    (hkept : (Workshop.empty config).Honours ⟨True, True⟩ ds) :
    (∀ d : Doing, d.Keeps ⟨True, True⟩ w → (∀ place ∈ d.place?, ∃ k, w.worker? place = some k) →
      (∃ w', w.perform d = some w') ∨ ∃ g, w.halt? d = some (.overflow, g) ∧ g.Full) ∧
    (∀ {α : Type} (x : SessionM α) (place : Nat) (s t : Session) (e : Fault), w.IsAt place s →
      w.Enacts ⟨True, True⟩ place s x → x s = (.error e, t) →
        (∃ cause, e = .error cause) ∨ e = .overflow ∧ t.registry.Full) ∧
    (∀ id, w.registry.Has id → ∃ chain, w.registry.lexicalChain id = .ok chain) ∧
    ∀ place k, w.worker? place = some k →
      k.builder.rescuerStack.head? = some k.builder.rescuer ∧
      k.builder.rescuerStack.getLast? = some .unrescued ∧
      ∀ name method body, ((BuildT.child .closure name (some method) body : SessionM ScopeId)
        ((w.session k).naming (some method))).2.builder.methodName = some method := by
  have hreaches : (Workshop.empty config).Reaches ⟨True, True⟩ w := ⟨ds, hrun, hkept⟩
  have hw := hreaches.ready (ready_empty config)
  refine ⟨fun d hd hplace => ?_, ?_, fun id hid => ?_, fun place k _ => ?_⟩
  · rcases w.perform_or_halt hplace with hdone | ⟨⟨e, g⟩, hhalt⟩
    · exact .inl hdone
    · obtain ⟨rfl, hfull⟩ := end_of_halt hw.staffed hd hhalt
      exact .inr ⟨g, hhalt, hfull⟩
  · intro α x place s t e hs hx h
    exact end_of_enacts hw hs hx h
  · obtain ⟨chain, -, hchain⟩ := (hw.staffed.formed trivial).walk hid
    exact ⟨chain, hchain⟩
  · refine ⟨Builder.head?_rescuerStack, Builder.getLast?_rescuerStack, fun name method body => ?_⟩
    rw [builder_child]
    rfl

/-- A method receives an argument, and a block in it is about to pass that on. Exits that lead
nowhere fail on the way, and stacks are popped that are empty. -/
def beforeSuper : List Doing :=
  [.op (.newScope .method ⟨"m"⟩ "main.rb" 0 none),
    .op (.newScope .closure ⟨"_CLOSURE_"⟩ "main.rb" 1 (some ⟨0⟩)),
    .op (.openRoot ⟨0⟩), .op (.act 0 (.note 3)),
    .op (.act 0 (.emit (.receive (.named ⟨⟨"a"⟩, 0, 0⟩) (.preRequired 0)))),
    .op (.act 0 .popRescuer), .op (.act 0 (.break .nil)), .op (.openInside 0 ⟨1⟩ false),
    .op (.act 1 .popEnsure), .op (.act 1 .pushLoop), .op (.act 1 .retry)]

/-- A loop that runs a block with a loop of its own. -/
def loopOverBlock : SessionM Operand :=
  BuildT.loop (pure .nil) (do
    let _ ← BuildT.block ⟨"each"⟩ do
      let _ ← BuildT.loop (pure .nil) (Session.breakWith .nil) true false) true true

theorem enacts_loopOverBlock {place : Nat} {s : Session} : w.Enacts p place s loopOverBlock := by
  apply enacts_of_later
  apply later_loop later_pure
  refine later_bind (later_block fun _ _ => ?_) fun _ => later_pure
  have hbreak : ∀ {w : Workshop} {place}, w.EnactsLater p place (Session.breakWith .nil) :=
    later_act (a := .break .nil) rfl rfl rfl
  exact later_bind (later_loop later_pure hbreak) fun _ => later_pure

theorem faultless_of_run_beforeSuper :
    (Workshop.empty {}).Honours ⟨True, True⟩ beforeSuper ∧
    ∃ w ∈ (Workshop.empty {}).performAll beforeSuper, ∃ k, w.worker? 1 = some k ∧
      ((∃ w', w.perform (.op (.act 1 (.zsuper .nullBlock))) = some w') ∨
        ∃ g, w.halt? (.op (.act 1 (.zsuper .nullBlock))) = some (.overflow, g) ∧ g.Full) ∧
      (∀ e t, loopOverBlock (w.session k) = (.error e, t) →
        (∃ cause, e = .error cause) ∨ e = .overflow ∧ t.registry.Full) ∧
      k.builder.rescuerStack.getLast? = some .unrescued := by
  have hkept : (Workshop.empty {}).Honours ⟨True, True⟩ beforeSuper := by decide +kernel
  have hrun : ∃ w ∈ (Workshop.empty {}).performAll beforeSuper,
      (w.worker? 1).isSome ∧ (Doing.op (.act 1 (.zsuper .nullBlock))).Keeps ⟨True, True⟩ w := by
    decide +kernel
  obtain ⟨w, hw, hopen, hkeeps⟩ := hrun
  obtain ⟨k, hk⟩ := Option.isSome_iff_exists.mp hopen
  obtain ⟨hdone, hbodies, -, hworkers⟩ := faultless_of_run hw hkept
  refine ⟨hkept, w, hw, k, hk, hdone _ hkeeps ?_, fun e t => ?_, (hworkers 1 k hk).2.1⟩
  · rintro place hplace
    obtain rfl := Option.some.inj hplace
    exact ⟨k, hk⟩
  · exact hbodies loopOverBlock 1 _ t e ⟨k, hk, rfl⟩ enacts_loopOverBlock

end Workshop

end ScopeIR
