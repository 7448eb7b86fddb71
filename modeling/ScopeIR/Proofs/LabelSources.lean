import ScopeIR.Proofs.Handouts

/-! Where labels come from: the counter of their scope, with a stem that may be anybody's choice,
the start of a block, and the bottom of all rescuers. No label is handed out twice, but the first
one of a scope can be one of the other two. -/

namespace ScopeIR

/-- A label that was handed out for a scope. -/
structure Naming where
  scope : ScopeId
  label : Label
  deriving DecidableEq

/-- How many labels were handed out for the scope. -/
def named (log : List Naming) (id : ScopeId) : Nat := log.countP (·.scope = id)

/-- Each label has the number of those before it. -/
def Numbered (log : List Naming) : Prop :=
  ∀ before n after, log = before ++ n :: after → n.label.index.toNat = named before n.scope

section Numbering

variable {log before after : List Naming} {n : Naming} {id : ScopeId}

theorem named_concat : named (log ++ [n]) id = named log id + if n.scope = id then 1 else 0 := by
  simp only [named, List.countP_append, List.countP_singleton, decide_eq_true_eq]

theorem numbered_nil : Numbered [] :=
  fun _ _ _ h => absurd h.symm (List.append_ne_nil_of_right_ne_nil _ (List.cons_ne_nil _ _))

theorem Numbered.concat (hlog : Numbered log) (hn : n.label.index.toNat = named log n.scope) :
    Numbered (log ++ [n]) := by
  intro before n' after h
  rcases split_of_concat h with ⟨rfl, rfl⟩ | ⟨rest, hrest⟩
  · exact hn
  · exact hlog before n' rest hrest

/-- The counter has moved on since a label was handed out. -/
theorem Numbered.ne (hlog : Numbered log) (h : log = before ++ n :: after) {n' : Naming}
    (hmem : n' ∈ before) (hscope : n'.scope = n.scope) : n'.label ≠ n.label := by
  obtain ⟨front, back, rfl⟩ := List.append_of_mem hmem
  have hindex := hlog _ n after h
  have hindex' := hlog front n' (back ++ n :: after) (by
    rw [h, List.append_assoc, List.cons_append])
  intro heq
  rw [← heq, hindex', hscope] at hindex
  simp only [named, List.countP_append, List.countP_cons, hscope, decide_true, if_true] at hindex
  omega

/-- A label without a number of its own is only handed out at the very first. -/
theorem Numbered.eq_iff (hlog : Numbered log) (h : log = before ++ n :: after) {l : Label}
    (hl : l.index = 0) :
    n.label = l ↔ n.label.stem = l.stem ∧ ∀ n' ∈ before, n'.scope ≠ n.scope := by
  have hfirst : (∀ n' ∈ before, n'.scope ≠ n.scope) ↔ n.label.index = 0 := by
    rw [← UInt64.toNat_inj, hlog before n after h, named, UInt64.toNat_zero, List.countP_eq_zero]
    simp only [decide_eq_true_eq, ne_eq]
  rw [hfirst, ← hl]
  obtain ⟨_, stem, index⟩ := n
  cases l
  exact iff_of_eq (Label.mk.injEq ..)

end Numbering

namespace Registry

variable {kept : Prop} {g g' g'' : Registry} {id : ScopeId} {log log' : List Naming}

/-- No label is handed out. -/
def NamesNone (g g' : Registry) : Prop := ∀ id, g'.labels id = g.labels id

/-- These labels are handed out on the way, and no others. -/
inductive Names (g : Registry) : List Naming → Registry → Prop
  | nothing : Names g [] g
  | rests {log : List Naming} {g' g'' : Registry} :
    Names g log g' → g'.NamesNone g'' → Names g log g''
  | label {log : List Naming} {g' g'' : Registry} {id : ScopeId} {stem : String} {l : Label} :
    Names g log g' → g'.Runs (RegistryM.newLabel id stem) l g'' → Names g (log ++ [⟨id, l⟩]) g''

theorem Names.trans (h : g.Names log g') (h' : g'.Names log' g'') : g.Names (log ++ log') g'' := by
  induction h' with
  | nothing => rwa [List.append_nil]
  | rests _ hrests ih => exact ih.rests hrests
  | label _ hlabel ih => exact List.append_assoc .. ▸ ih.label hlabel

theorem namesNone_of_scopes (h : g'.scopes = g.scopes) : g.NamesNone g' := by
  intro id
  rw [labels, labels, scope?, scope?, h]

theorem namesNone_setScope {x y : Scope} (hx : g.scope? id = some x)
    (hy : y.nextLabel = x.nextLabel) : g.NamesNone (g.setScope id y) := by
  intro id'
  by_cases hid : id' = id
  · subst hid
    rw [labels, labels, scope?_setScope_self hx, hx, Option.elim_some, Option.elim_some, hy]
  · rw [labels, labels, scope?_setScope_ne hid]

/-- A new scope has no labels yet. -/
theorem namesNone_of_newScope {kind : ScopeKind} {name : Symbol} {file : String} {line : Int32}
    {parent : Option ScopeId} (h : g.Runs (RegistryM.newScope kind name file line parent) id g') :
    g.NamesNone g' := by
  obtain ⟨x, hgains, rfl⟩ := gains_of_newScope h
  intro id
  cases hid : g.scope? id with
  | some y => rw [labels, labels, hid, scope?, hgains.old hid, Option.elim_some, Option.elim_some]
  | none =>
    have hcounters := (counters_of_newScope h).1
    by_cases hnew : id = x.id
    · rw [hnew, hcounters, labels, ← hnew, hid]
      rfl
    · have hsize : g.scopes.size ≤ id.index.toNat := Array.getElem?_eq_none_iff.mp hid
      have hne : id.index.toNat ≠ g.scopes.size := fun heq =>
        hnew (congrArg ScopeId.mk (UInt64.toNat_inj.mp (heq.trans hgains.id.symm)))
      have hnone : g'.scope? id = none :=
        Array.getElem?_eq_none_iff.mpr (by rw [hgains.size]; omega)
      rw [labels, labels, hid, hnone]

theorem exists_names_of_advance (h : g.Advance kept g') : ∃ log, g.Names log g' := by
  have hnone (h : g.NamesNone g') : ∃ log, g.Names log g' := ⟨[], .rests .nothing h⟩
  cases h with
  | store hx => exact hnone (namesNone_setScope hx rfl)
  | changes h =>
    cases h with
    | record => exact hnone (namesNone_of_scopes rfl)
    | newScope h => exact hnone (namesNone_of_newScope h)
    | insertFlags h =>
      obtain ⟨x, hx, -, rfl⟩ := eq_of_insertFlags h
      exact hnone (namesNone_setScope hx rfl)
    | setRefined h =>
      obtain ⟨x, hx, rfl⟩ := runs_updateScope.mp h
      exact hnone (namesNone_setScope hx rfl)
    | serves h =>
      cases h with
      | record => exact hnone (namesNone_of_scopes rfl)
      | newLabel h => exact ⟨_, .label .nothing h⟩
      | nextTemp h =>
        obtain ⟨x, next, hx, -, -, rfl⟩ := eq_of_nextTemp h
        exact hnone (namesNone_setScope hx rfl)
      | addClosure _ h =>
        obtain ⟨x, hx, rfl⟩ := runs_updateScope.mp h
        refine hnone (namesNone_setScope hx ?_)
        split <;> rfl

theorem exists_names (h : g.Advances kept g') : ∃ log, g.Names log g' := by
  induction h with
  | refl => exact ⟨[], .nothing⟩
  | tail _ hstep ih =>
    obtain ⟨log, hlog⟩ := ih
    obtain ⟨log', hlog'⟩ := exists_names_of_advance hstep
    exact ⟨log ++ log', hlog.trans hlog'⟩

/-- The counters have counted the labels of the log. -/
structure Counts (log : List Naming) (g : Registry) : Prop where
  counted (id : ScopeId) : g.labels id = named log id
  numbered : Numbered log

theorem Counts.names (hg : Counts log g) (h : g.Names log' g') : Counts (log ++ log') g' := by
  induction h with
  | nothing => rwa [List.append_nil]
  | rests _ hrests ih => exact ⟨fun id => (hrests id).trans (ih.counted id), ih.numbered⟩
  | @label log' g' _ id _ _ _ hlabel ih =>
    obtain ⟨x, next, hx, hnext, rfl, rfl⟩ := eq_of_newLabel hlabel
    have hcount : x.nextLabel.toNat = named (log ++ log') id := by
      rw [← ih.counted id, labels, hx, Option.elim_some]
    rw [← List.append_assoc]
    refine ⟨fun id' => ?_, ih.numbered.concat hcount⟩
    rw [named_concat]
    by_cases hid : id' = id
    · subst hid
      rw [labels, scope?_setScope_self hx, Option.elim_some, if_pos rfl, ← hcount, hnext]
    · rw [labels, scope?_setScope_ne hid, ← labels, ih.counted, if_neg (Ne.symm hid), Nat.add_zero]

end Registry

/-- If a block has a start label, it is the one named after its scope. -/
def Builder.HasOwnStart (b : Builder) : Prop := ∀ l ∈ b.closureStart, l = b.scope.startLabel

namespace Session

variable {P Q : Instr → Prop} {s t : Session} {xs : List Instr}

theorem hasOwnStart_of_same (hs : s.builder.HasOwnStart)
    (hscope : t.builder.scope = s.builder.scope)
    (hstart : t.builder.closureStart = s.builder.closureStart) : t.builder.HasOwnStart := by
  rwa [Builder.HasOwnStart, hscope, hstart]

theorem Adds.hasOwnStart (h : s.Adds t xs) (hs : s.builder.HasOwnStart) :
    t.builder.HasOwnStart := by
  rcases h.start with hsame | ⟨-, hsome⟩
  · exact hasOwnStart_of_same hs h.scope hsame
  · intro l hl
    rw [h.scope]
    exact Option.some.inj (hl.symm.trans hsome)

theorem hasOwnStart_of_motion (hs : s.builder.HasOwnStart) (h : s.Motion P Q t) :
    t.builder.HasOwnStart := by
  cases h with
  | label h => exact (makesLabel_of_newLabelNamed h).toEmits.hasOwnStart hs
  | temp h => exact (takesTemp_of_temp h).toEmits.hasOwnStart hs
  | module h => exact (emits_of_currentModuleVar h).hasOwnStart hs
  | yields h => exact (emits_of_yieldClosureVar h).1.hasOwnStart hs
  | records _ h => exact (emits_of_record h).hasOwnStart hs
  | registers h => exact (emits_of_addClosure h).hasOwnStart hs
  | starts h =>
    obtain ⟨-, rfl⟩ := runs_newClosureStart.mp h
    exact fun l hl => (Option.some.inj hl).symm
  | emits _ h => exact (emits_of_emit h).hasOwnStart hs
  | prepends _ h =>
    obtain rfl := runs_prepend.mp h
    exact hasOwnStart_of_same hs rfl rfl
  | arranges hsame _ => exact hasOwnStart_of_same hs hsame.scope hsame.closureStart

theorem hasOwnStart_of_motions (hs : s.builder.HasOwnStart) (h : s.Motions P Q t) :
    t.builder.HasOwnStart := by
  induction h with
  | refl => exact hs
  | tail _ hstep ih => exact hasOwnStart_of_motion ih hstep

end Session

namespace Act

open Session

theorem hasOwnStart {a : Act} {s t : Session} {v : Option Unit} (hs : s.builder.HasOwnStart)
    (h : Workshop.settled a.run s = some (v, t)) : t.builder.HasOwnStart := by
  cases hnoted : a.noted? with
  | none =>
    have hperforms : Performs (fun _ => True) (fun _ => True) a.run :=
      a.performs usual_true hnoted (fun _ _ => trivial) fun _ _ => trivial
    exact hasOwnStart_of_motions hs (hperforms (fun _ _ _ _ => trivial) h)
  | some line =>
    cases a with
    | note =>
      obtain rfl := Workshop.eq_of_settled h
      exact hasOwnStart_of_same hs rfl rfl
    | _ => cases hnoted

end Act

/-- The label that a caller is handed. -/
def Doing.labelled (w : Workshop) : Doing → Option Naming
  | .op (.newLabel scope stem) => (w.change (RegistryM.newLabel scope stem)).map (⟨scope, ·.1⟩)
  | .op (.act place (.newLabel stem)) => do
    let k ← w.worker? place
    let l ← (Session.newLabelNamed stem (w.session k)).1.toOption
    return ⟨k.builder.scope, l⟩
  | _ => none

namespace Workshop

open Session

variable {w w' w₀ : Workshop} {d : Doing} {ds : List Doing} {log : List Naming}

/-- A run, with all labels that are handed out in its course. -/
inductive GivesLabels (w₀ : Workshop) : List Doing → List Naming → Workshop → Prop
  | nothing : GivesLabels w₀ [] [] w₀
  | does {ds : List Doing} {log log' : List Naming} {w w' : Workshop} {d : Doing} :
    GivesLabels w₀ ds log w → w.perform d = some w' → w.registry.Names log' w'.registry →
    (∀ n ∈ d.labelled w, n ∈ log') →
      GivesLabels w₀ (ds ++ [d]) (log ++ log') w'

/-- Whatever is done, labels are handed out one after another. -/
theorem exists_names_of_perform (hw : w.Staffed ⟨False, False⟩) (hd : w.perform d = some w') :
    ∃ log, w.registry.Names log w'.registry ∧ ∀ n ∈ d.labelled w, n ∈ log := by
  have hother (hnone : d.labelled w = none) :
      ∃ log, w.registry.Names log w'.registry ∧ ∀ n ∈ d.labelled w, n ∈ log := by
    obtain ⟨log, hlog⟩ := Registry.exists_names (effect_of_staffed hw hd).advances
    exact ⟨log, hlog, fun n hn => nomatch hnone ▸ hn⟩
  cases d with
  | insertFlags => exact hother rfl
  | op o =>
    cases steps_of_perform hd with
    | @newLabel scope stem l g hg =>
      refine ⟨[⟨scope, l⟩], .label .nothing hg, fun n hn => ?_⟩
      rw [Doing.labelled, change_eq_some.mpr ⟨g, hg, rfl⟩] at hn
      exact List.mem_singleton.mpr (Option.some.inj hn).symm
    | @act place a k v t hk ht =>
      cases a with
      | newLabel stem =>
        obtain ⟨y, hy⟩ := settled_discard ht
        obtain ⟨l, hl⟩ := Uncatchable.newLabelNamed.runs_of_settled hy
        have hrun : newLabelNamed stem (w.session k) = (.ok l, t) := hl
        obtain ⟨g, hg, rfl⟩ := runs_newLabelNamed.mp hl
        refine ⟨[⟨k.builder.scope, l⟩], .label .nothing hg, fun n hn => ?_⟩
        rw [Doing.labelled, hk, Option.bind_eq_bind, Option.bind_some, hrun] at hn
        exact List.mem_singleton.mpr (Option.some.inj hn).symm
      | _ => exact hother rfl
    | _ => exact hother rfl

/-- Each builder has the start label of its own scope, if it has one. -/
def HasOwnStarts (w : Workshop) : Prop :=
  ∀ place k, w.worker? place = some k → k.builder.HasOwnStart

theorem HasOwnStarts.perform (hw : w.HasOwnStarts) (hd : w.perform d = some w') :
    w'.HasOwnStarts := by
  intro place k' hk'
  cases turn_of_perform hd hk' with
  | opens _ _ hopen =>
    obtain ⟨x, -, hb, -⟩ := eq_of_openBuilder hopen
    intro l hl
    rw [hb] at hl
    cases hl
  | rests _ hk => exact hw place k' hk
  | acts _ hk ht hbuilder =>
    rw [hbuilder]
    exact Act.hasOwnStart (s := w.session _) (hw place _ hk) ht

/-- The log is that of all labels so far. -/
structure KeepsLabels (log : List Naming) (w : Workshop) : Prop where
  staffed : w.Staffed ⟨False, False⟩
  counts : Registry.Counts log w.registry
  ownStarts : w.HasOwnStarts

theorem keepsLabels_empty (config : Config) : (Workshop.empty config).KeepsLabels [] where
  staffed := .empty config
  counts := ⟨fun _ => rfl, numbered_nil⟩
  ownStarts _ _ hk := nomatch hk

theorem GivesLabels.keepsLabels {config : Config}
    (h : (Workshop.empty config).GivesLabels ds log w) : w.KeepsLabels log := by
  generalize hw₀ : Workshop.empty config = w₀ at h
  induction h with
  | nothing => exact hw₀ ▸ keepsLabels_empty config
  | does _ hd hnames _ ih =>
    exact ⟨ih.staffed.effect (effect_of_staffed ih.staffed hd), ih.counts.names hnames,
      ih.ownStarts.perform hd⟩

theorem GivesLabels.performAll (h : w₀.GivesLabels ds log w) : w₀.performAll ds = some w := by
  induction h with
  | nothing => rfl
  | does _ hd _ _ ih => exact performAll_concat ih hd

/-- Whatever label a caller is handed is in the log. -/
theorem GivesLabels.labelled {before after : List Doing} {u : Workshop} {n : Naming}
    (h : w₀.GivesLabels ds log w) (hds : ds = before ++ d :: after)
    (hu : w₀.performAll before = some u) (hn : n ∈ d.labelled u) : n ∈ log := by
  induction h generalizing after with
  | nothing => exact absurd hds.symm (List.append_ne_nil_of_right_ne_nil _ (List.cons_ne_nil _ _))
  | does h _ _ hlabelled ih =>
    rcases split_of_concat hds with ⟨rfl, rfl⟩ | ⟨rest, hrest⟩
    · obtain rfl := Option.some.inj (h.performAll.symm.trans hu)
      exact List.mem_append_right _ (hlabelled n hn)
    · exact List.mem_append_left _ (ih hrest)

theorem exists_givesLabels {config : Config}
    (hrun : (Workshop.empty config).performAll ds = some w) :
    ∃ log, (Workshop.empty config).GivesLabels ds log w := by
  refine run_of_doings (I := fun ds w => ∃ log, (Workshop.empty config).GivesLabels ds log w) ?_
    ⟨[], .nothing⟩ hrun (honours_nothing _ _)
  rintro ds d w w' ⟨log, hlog⟩ - hd
  obtain ⟨log', hnames, hlabelled⟩ := exists_names_of_perform hlog.keepsLabels.staffed hd
  exact ⟨log ++ log', hlog.does hd hnames hlabelled⟩

/-- In any run, labels are handed out one after another, and among them all that a caller is handed.
A label that is handed out for a scope differs from those that were before. It is the start label of
its scope, or the one at the bottom of all rescuers, where it is the first of its scope and somebody
chose the same stem, and nowhere else. Blocks have no other start labels than those of their
scopes. -/
theorem labels_of_run {config : Config} (hrun : (Workshop.empty config).performAll ds = some w) :
    (∃ log, (Workshop.empty config).GivesLabels ds log w) ∧
    ∀ log, (Workshop.empty config).GivesLabels ds log w →
      (∀ before d after u, ds = before ++ d :: after →
        (Workshop.empty config).performAll before = some u → ∀ n ∈ d.labelled u, n ∈ log) ∧
      (∀ before n after, log = before ++ n :: after →
        (∀ n' ∈ before, n'.scope = n.scope → n'.label ≠ n.label) ∧
        (n.label = n.scope.startLabel ↔
          n.label.stem = n.scope.startLabel.stem ∧ ∀ n' ∈ before, n'.scope ≠ n.scope) ∧
        (n.label = .unrescued ↔
          n.label.stem = Label.unrescued.stem ∧ ∀ n' ∈ before, n'.scope ≠ n.scope)) ∧
      ∀ place k, w.worker? place = some k →
        ∀ l ∈ k.builder.closureStart, l = k.builder.scope.startLabel := by
  refine ⟨exists_givesLabels hrun, fun log hlog => ?_⟩
  have hw := hlog.keepsLabels
  refine ⟨fun _ _ _ _ hds hu _ hn => hlog.labelled hds hu hn, fun before n after hsplit => ?_,
    hw.ownStarts⟩
  have hnumbered := hw.counts.numbered
  exact ⟨fun n' hmem hscope => hnumbered.ne hsplit hmem hscope, hnumbered.eq_iff hsplit rfl,
    hnumbered.eq_iff hsplit rfl⟩

/-- A block has its start label placed before it makes labels of its own. -/
def lateNames : List Doing :=
  [.op (.newScope .method ⟨"m"⟩ "main.rb" 0 none),
    .op (.newScope .closure ⟨"each"⟩ "main.rb" 1 (some ⟨0⟩)), .op (.openRoot ⟨1⟩),
    .op (.act 0 .placeClosureStart), .op (.act 0 (.newLabel "1_START")),
    .op (.newLabel ⟨0⟩ "UNRESCUED_REGION"), .op (.act 0 (.newLabel "1_START"))]

/-- One of its labels is the start label once more, the next one is not. Another scope has the label
at the bottom of all rescuers. -/
theorem labels_of_run_lateNames : ∃ w ∈ (Workshop.empty {}).performAll lateNames,
    ∃ log, (Workshop.empty {}).GivesLabels lateNames log w ∧
      ⟨⟨1⟩, ScopeId.startLabel ⟨1⟩⟩ ∈ log ∧ ⟨⟨0⟩, .unrescued⟩ ∈ log ∧
      ⟨⟨1⟩, ⟨"1_START", 1⟩⟩ ∈ log ∧
      (∃ k ∈ w.worker? 0, k.builder.closureStart = some (ScopeId.startLabel ⟨1⟩)) ∧
      ∀ before n after, log = before ++ n :: after →
        ∀ n' ∈ before, n'.scope = n.scope → n'.label ≠ n.label := by
  have hsome : ∃ w ∈ (Workshop.empty {}).performAll lateNames,
      ∃ k ∈ w.worker? 0, k.builder.closureStart = some (ScopeId.startLabel ⟨1⟩) := by
    decide +kernel
  obtain ⟨w, hw, hstart⟩ := hsome
  obtain ⟨⟨log, hlog⟩, hall⟩ := labels_of_run hw
  obtain ⟨hlabelled, hapart, -⟩ := hall log hlog
  have hasked {i : Nat} {d : Doing} {n : Naming}
      (hds : lateNames = lateNames.take i ++ d :: lateNames.drop (i + 1))
      (hu : ∃ u ∈ (Workshop.empty {}).performAll (lateNames.take i), n ∈ d.labelled u) :
      n ∈ log := by
    obtain ⟨u, hu, hn⟩ := hu
    exact hlabelled _ _ _ u hds hu n hn
  exact ⟨w, hw, log, hlog, hasked (i := 4) rfl (by decide +kernel),
    hasked (i := 5) rfl (by decide +kernel), hasked (i := 6) rfl (by decide +kernel), hstart,
    fun before n after hsplit => (hapart before n after hsplit).1⟩

end Workshop

end ScopeIR
