import Octantis.Binding.ElementRows

/-!
# The rows of a result

An entry that is bound element by element gives its register one row for each element, a row
with a logic input or a new name. A load gives rows that have no input. So no row of a load is
one of such a result, whatever is bound before, between and after.

## What is proved

* `boundElements_of_run`: the rows of a register after its entry was bound, and later;
* `notMem_rowsOf_of_load`: rows of a load are no rows of a result.
-/

namespace Octantis

open Std Lib

variable {operation : Operation} {specifications : List String} {destReg reg : Reg} {src1 src2 n : Name}
  {s s' : BinderState} {b b' : LiMBinder}

/-- The step gives the register the row. -/
def Lib.Transition.Gives (step : Transition BinderState BindingAction) (reg : Reg) (row : Name) : Prop :=
  step.post.binder.rowsOf reg = step.pre.binder.rowsOf reg ++ [row]

/-- A row without inputs, as a load adds it. -/
def LiMBinder.Loaded (b : LiMBinder) (n : Name) : Prop :=
  ∃ row, b.MemArray.findRow n = some row ∧ row.inputConnections.head? = some noInput

/-- No row is named as the input of the loads. -/
theorem BinderState.WellFormed.findRow_noInput (hs : s.WellFormed) : s.binder.MemArray.findRow noInput = none := by
  cases h : s.binder.MemArray.findRow noInput with
  | none => rfl
  | some row => exact absurd (hs.aligned h) (by decide)

theorem LiMBinder.Extends.loaded (he : b.Extends b') (h : b.Loaded n) : b'.Loaded n := by
  obtain ⟨row, hrow, hhead⟩ := h
  obtain ⟨row', hrow', hext⟩ := he.rows n row hrow
  obtain ⟨more, hmore⟩ := hext.connections
  refine ⟨row', hrow', ?_⟩
  rw [← hmore, List.head?_append, hhead]
  rfl

/-- A row without inputs is fed by no row. -/
theorem BinderState.WellFormed.feedingType_of_loaded (hs : s.WellFormed) (h : s.binder.Loaded n) :
    s.binder.feedingType n = none := by
  obtain ⟨row, hrow, hhead⟩ := h
  simp only [LiMBinder.feedingType, hrow, hhead, hs.findRow_noInput, Option.bind_eq_bind, Option.bind_some,
    Option.bind_none]

/-! ### One element -/

/-- An element gives its register one row: a result that is reused, or the name of the element. -/
theorem exists_gives_element {junk : Indeterminate} (hs : s.WellFormed)
    (h : bindStep s (.element operation specifications destReg src1 src2 junk) = some s') :
    ∃ row, Transition.Gives ⟨s, .element operation specifications destReg src1 src2 junk, s'⟩ destReg row ∧
      (s.binder.feedingType row = some operation ∨ s.tmpDestAddr = some row) := by
  cases hshift : operation.isShift with
  | false =>
    obtain ⟨row, hrow, hchooses⟩ := rowsOf_element hs hshift h
    refine ⟨row, hrow, ?_⟩
    rw [Transition.Chooses] at hchooses
    simp only at hchooses
    split at hchooses
    · next d hd =>
      split at hchooses
      · next hf => exact .inl (hchooses ▸ hf)
      · exact .inr hchooses
    · exact .inr hchooses.1
  | true =>
    obtain ⟨hop, dest, b', htmp, hn, hle, -, hb', rfl⟩ := bindStep_element hs h
    have happended : (s.binder.addNewItem destReg dest).rowsOf destReg = s.binder.rowsOf destReg ++ [dest] := by
      rw [LiMBinder.rowsOf_addNewItem, if_pos rfl]
    rcases LiMBinder.performBinding_cases hb' with
      ⟨d, hd, hf, rfl⟩ | ⟨d, op, hd, hf, hne, rfl⟩ | ⟨hd, -, hmap⟩ | ⟨-, hnot, -⟩
    · have hf : s.binder.feedingType d = some operation := hf
      have hrows := hn.arrayNamesMap_reuse hf destReg destReg
      rw [if_pos rfl] at hrows
      exact ⟨d, congrArg (Option.getD · []) hrows, .inl hf⟩
    · exact ⟨dest, happended, .inr htmp⟩
    · obtain ⟨-, hnames, -⟩ := (LiMBinder.mapShift_cases (b := s.binder.addNewItem destReg dest) hs.loads
        (hn.fresh (Nat.le_refl _)) (hn.fresh (show dest ≤ s.binder.zeroAddr by lia)) hmap).frame
      have hrows : b'.rowsOf destReg = (s.binder.addNewItem destReg dest).rowsOf destReg := by
        rw [LiMBinder.rowsOf, hnames]
        rfl
      exact ⟨dest, hrows.trans happended, .inr htmp⟩
    · rw [hshift] at hnot
      cases hnot

/-- The elements give their register one row each. -/
theorem exists_gives_elements {elements : List BindingAction} (hs : s.WellFormed)
    (hall : ∀ a ∈ elements, ∃ src1 src2 j, a = .element operation specifications destReg src1 src2 j)
    (h : run bindStep s elements = some s') :
    ∃ rows, s'.binder.rowsOf destReg = s.binder.rowsOf destReg ++ rows ∧
      List.Forall₂ (fun row step => step.Gives destReg row) rows (transitions bindStep s elements) := by
  refine (run_transitions (P := fun tr s' => s'.WellFormed ∧ ∃ rows,
      s'.binder.rowsOf destReg = s.binder.rowsOf destReg ++ rows ∧
        List.Forall₂ (fun row step => step.Gives destReg row) rows tr)
    (Q := fun a => ∃ src1 src2 j, a = .element operation specifications destReg src1 src2 j)
    ⟨hs, [], (List.append_nil _).symm, .nil⟩ ?_ hall h).2
  rintro tr s₁ _ s₂ ⟨src1, src2, j, rfl⟩ ⟨hs₁, rows, hrows, hgives⟩ hstep
  obtain ⟨row, hrow, -⟩ := exists_gives_element hs₁ hstep
  refine ⟨(wellFormed_bindStep hs₁ hstep).1, rows ++ [row], ?_, ?_⟩
  · rw [hrow, hrows, List.append_assoc]
  · exact List.rel_append hgives (.cons hrow .nil)

/-! ### Loads and results -/

/-- The rows of the register `c` have no inputs, and none of them is a row of the register `w`. -/
structure BinderState.Apart (s : BinderState) (c w : Reg) : Prop where
  loaded : ∀ n ∈ s.binder.rowsOf c, s.binder.Loaded n
  apart : ∀ n ∈ s.binder.rowsOf c, n ∉ s.binder.rowsOf w

/-- The register `c` is only loaded, and the register `w` only bound element by element. -/
def BindingAction.KeepsApart (c w : Reg) : BindingAction → Prop
  | .load destReg _ => destReg ≠ w
  | .element _ _ destReg _ _ _ => destReg ≠ c
  | .accumulate _ _ destReg _ => destReg ≠ c ∧ destReg ≠ w
  | .enter _ | .leave => True

/-- The rows of a register that is not bound stay as they are. -/
theorem rowsOf_of_destReg_ne {a : BindingAction} (hs : s.WellFormed) (h : bindStep s a = some s')
    (hne : a.destReg? ≠ some reg) : s'.binder.rowsOf reg = s.binder.rowsOf reg := by
  have hgives := givesRows_bindStep hs h
  cases hdest : a.destReg? with
  | none =>
    rw [hdest] at hgives
    rw [LiMBinder.rowsOf, hgives]
    rfl
  | some destReg =>
    rw [hdest] at hgives
    exact congrArg (Option.getD · []) (hgives.1 reg fun heq => hne (by rw [hdest, heq]))

/-- **A step keeps the rows of the loads apart.** -/
theorem BinderState.Apart.step {c w : Reg} {a : BindingAction} (hp : s.Apart c w) (hs : s.WellFormed)
    (ha : a.KeepsApart c w) (h : bindStep s a = some s') : s'.Apart c w := by
  obtain ⟨-, he⟩ := wellFormed_bindStep hs h
  have hkept : a.destReg? ≠ some c → a.destReg? ≠ some w → s'.Apart c w := by
    intro hc hw
    have hrowsc := rowsOf_of_destReg_ne hs h hc
    have hrowsw := rowsOf_of_destReg_ne hs h hw
    refine ⟨fun n hn => ?_, fun n hn => ?_⟩
    · rw [hrowsc] at hn
      exact he.loaded (hp.loaded n hn)
    · rw [hrowsc] at hn
      rw [hrowsw]
      exact hp.apart n hn
  cases a with
  | enter | leave => exact hkept (by simp [BindingAction.destReg?]) (by simp [BindingAction.destReg?])
  | accumulate op specs destReg l =>
    exact hkept (by simpa [BindingAction.destReg?] using ha.1) (by simpa [BindingAction.destReg?] using ha.2)
  | load destReg ti =>
    have ha : destReg ≠ w := ha
    have hw : (BindingAction.load destReg ti).destReg? ≠ some w := by simpa [BindingAction.destReg?] using ha
    by_cases hc : destReg = c
    · subst hc
      have hrowsw := rowsOf_of_destReg_ne hs h hw
      obtain ⟨hb, rfl⟩ := bindStep_load hs h
      have hrows : (s.binder.bindLoad destReg ti).rowsOf destReg =
          s.binder.rowsOf destReg ++ [s.binder.zeroAddr] := by
        refine (LiMBinder.rowsOf_addNewItem _ destReg destReg s.binder.zeroAddr).trans ?_
        rw [if_pos rfl]
        rfl
      refine ⟨fun n hn => ?_, fun n hn hmem => ?_⟩
      · have hn : n ∈ (s.binder.bindLoad destReg ti).rowsOf destReg := hn
        rw [hrows, List.mem_append, List.mem_singleton] at hn
        rcases hn with hn | rfl
        · exact he.loaded (hp.loaded n hn)
        · refine ⟨_, (LiMBinder.findRow_bindLoad hb.named destReg ti _).trans (if_pos rfl), rfl⟩
      · have hn : n ∈ (s.binder.bindLoad destReg ti).rowsOf destReg := hn
        rw [hrowsw] at hmem
        rw [hrows, List.mem_append, List.mem_singleton] at hn
        rcases hn with hn | rfl
        · exact hp.apart n hn hmem
        · exact absurd (hb.named.mem_rowsOf hmem) (lt_irrefl _)
    · exact hkept (by simpa [BindingAction.destReg?] using hc) hw
  | element op specs destReg src1 src2 junk =>
    have ha : destReg ≠ c := ha
    have hc : (BindingAction.element op specs destReg src1 src2 junk).destReg? ≠ some c := by
      simpa [BindingAction.destReg?] using ha
    by_cases hw : destReg = w
    · subst hw
      have hrowsc := rowsOf_of_destReg_ne hs h hc
      obtain ⟨row, hrow, hcases⟩ := exists_gives_element hs h
      refine ⟨fun n hn => ?_, fun n hn hmem => ?_⟩
      · rw [hrowsc] at hn
        exact he.loaded (hp.loaded n hn)
      · rw [hrowsc] at hn
        have hrow : s'.binder.rowsOf destReg = s.binder.rowsOf destReg ++ [row] := hrow
        rw [hrow, List.mem_append, List.mem_singleton] at hmem
        rcases hmem with hmem | rfl
        · exact hp.apart n hn hmem
        rcases hcases with hf | htmp
        · rw [hs.feedingType_of_loaded (hp.loaded n hn)] at hf
          cases hf
        · exact absurd ((hs.named_of_reserved htmp).1.mem_rowsOf hn) (lt_irrefl _)
    · exact hkept hc (by simpa [BindingAction.destReg?] using hw)

namespace BinderInput

variable {I : BinderInput} {T : InstructionTable} {p p' : BindingPhase} {entries : List (Reg × Operation)}

/-- The actions of an entry keep the rows of a load apart from those of a result. -/
theorem bindEntry_keepsApart {c w k : Reg} {dc dw d : InstructionData} (hc : T.find c = some dc)
    (hload : dc.operation = .load) (hw : T.find w = some dw) (hop : dw.operation ≠ .load)
    (hacc : dw.isAccumulation = false) (hd : T.find k = some d) (h : I.bindEntry p k d = some p') :
    ∃ actions, run bindStep ⟨p.binder, none⟩ actions = some ⟨p'.binder, none⟩ ∧
      ∀ a ∈ actions, a.KeepsApart c w := by
  have hkc : k = c → d.operation = .load := by
    rintro rfl
    obtain rfl := Option.some.inj (hd.symm.trans hc)
    exact hload
  have hkw : k = w → d.operation ≠ .load ∧ d.isAccumulation = false := by
    rintro rfl
    obtain rfl := Option.some.inj (hd.symm.trans hw)
    exact ⟨hop, hacc⟩
  unfold bindEntry at h
  split at h
  · next hdl =>
    obtain ⟨numIter, -, rfl⟩ := Option.map_eq_some_iff.mp h
    refine ⟨_, handleLoadOperationBindingProcess_run p.binder k d.ti numIter.toNat, fun a ha => ?_⟩
    obtain rfl := List.eq_of_mem_replicate ha
    exact fun heq => (hkw heq).1 hdl
  next hdl =>
  split at h
  · cases h
    exact ⟨[], rfl, by simp⟩
  next hlim =>
  have hbound : d.operation.isBound = true := by
    simp only [Operation.isBound, Bool.and_eq_true, decide_eq_true_eq]
    exact ⟨hdl, Option.isSome_iff_ne_none.mpr hlim⟩
  split at h
  · next hdacc =>
    obtain ⟨addrListSrc1, -, h⟩ := Option.bind_eq_some_iff.mp h
    obtain ⟨-, -, h⟩ := Option.bind_eq_some_iff.mp h
    obtain ⟨sets, -, h⟩ := Option.bind_eq_some_iff.mp h
    obtain ⟨b', hb', h⟩ := Option.bind_eq_some_iff.mp h
    cases h
    refine ⟨_, run_accumulate hbound d.specifications k hb', fun a ha => ?_⟩
    obtain ⟨l, -, rfl⟩ := List.mem_map.mp ha
    refine ⟨fun heq => hdl (hkc heq), fun heq => ?_⟩
    rw [(hkw heq).2] at hdacc
    cases hdacc
  · obtain ⟨rows1, -, h⟩ := Option.bind_eq_some_iff.mp h
    obtain ⟨b', hb', h⟩ := Option.bind_eq_some_iff.mp h
    cases h
    obtain ⟨elements, -, hrun, hall⟩ := handleFPOperationBindingProcess_elements hbound hb'
    refine ⟨_, hrun, fun a ha => ?_⟩
    simp only [List.mem_cons, List.mem_append, List.not_mem_nil, or_false] at ha
    rcases ha with rfl | ha | rfl
    · trivial
    · obtain ⟨src1, src2, j, rfl⟩ := hall a ha
      exact fun heq => hdl (hkc heq)
    · trivial

/-- **No row of a load is one of a result** that is bound element by element. -/
theorem notMem_rowsOf_of_load {c w : Reg} {dc dw : InstructionData} (h : run (I.step T) I.start entries = some p)
    (hc : T.find c = some dc) (hload : dc.operation = .load) (hw : T.find w = some dw)
    (hop : dw.operation ≠ .load) (hacc : dw.isAccumulation = false) {n : Name} (hn : n ∈ p.binder.rowsOf c) :
    n ∉ p.binder.rowsOf w := by
  refine (run_invariant (P := fun p => BinderState.WellFormed ⟨p.binder, none⟩ ∧
    BinderState.Apart ⟨p.binder, none⟩ c w) (Q := fun _ => True) ?_ ?_ (fun _ _ => trivial) h).2.apart n hn
  · refine ⟨BinderState.wellFormed_init I.par I.optTarget, fun n hn => ?_, fun n hn => ?_⟩
    all_goals simp [start, LiMBinder.init, LiMBinder.rowsOf] at hn
  · rintro p₁ e p₂ - ⟨hs, hp⟩ hstep
    obtain ⟨d, hd, hentry⟩ := Option.bind_eq_some_iff.mp hstep
    obtain ⟨actions, hrun, hall⟩ := bindEntry_keepsApart hc hload hw hop hacc hd hentry
    exact run_invariant (P := fun s => s.WellFormed ∧ s.Apart c w) (Q := fun a => a.KeepsApart c w)
      ⟨hs, hp⟩ (fun s a s' ha hs hstep => ⟨(wellFormed_bindStep hs.1 hstep).1, hs.2.step hs.1 ha hstep⟩) hall hrun

/-! ### The rows of an entry -/

/-- The entry of a register was bound element by element, each element to the row given, from the
rows of the two sources that were bound before. -/
structure BoundElements (I : BinderInput) (T : InstructionTable) (entries : List (Reg × Operation)) (reg : Reg)
    (d : InstructionData) (rows : List Name) : Prop where
  bound : ∃ before e after p rows1 rows2 size1 size2 elements s, entries = before ++ e :: after ∧ e.1 = reg ∧
    run (I.step T) I.start before = some p ∧
    p.binder.findInANM d.sourceReg1 = some rows1 ∧ p.binder.findInANM d.sourceReg2 = some rows2 ∧
    (I.source1 reg d).size rows1 = some size1 ∧ (I.source2 reg d).size rows2 = some size2 ∧
    elements.length = max size1 size2 ∧
    List.Forall₂ (BindingAction.IsElement d.operation d.specifications reg ((I.source1 reg d).row rows1 size1)
      ((I.source2 reg d).row rows2 size2) (I.junk reg)) (List.range elements.length) elements ∧
    run bindStep (p.binder.entered ((I.source1 reg d).constants + (I.source2 reg d).constants)) elements = some s ∧
    List.Forall₂ (fun row step => step.Gives reg row) rows
      (transitions bindStep (p.binder.entered ((I.source1 reg d).constants + (I.source2 reg d).constants)) elements)

/-- **The rows of a result**: those that its elements were given. -/
theorem boundElements_of_run {reg : Reg} {d : InstructionData} (h : run (I.step T) I.start entries = some p)
    (hnodup : (entries.map (·.1)).Nodup) (hreg : reg ∈ entries.map (·.1)) (hd : T.find reg = some d)
    (hop : d.operation.isBound = true) (hacc : d.isAccumulation = false) :
    I.BoundElements T entries reg d (p.binder.rowsOf reg) := by
  obtain ⟨e, he, rfl⟩ := List.mem_map.mp hreg
  obtain ⟨before, after, rfl⟩ := List.append_of_mem he
  rw [List.map_append, List.map_cons, List.nodup_append, List.nodup_cons] at hnodup
  obtain ⟨-, ⟨hafter, -⟩, hbefore⟩ := hnodup
  rw [run_append] at h
  obtain ⟨p₀, h₀, h⟩ := Option.bind_eq_some_iff.mp h
  rw [run_cons] at h
  obtain ⟨p₁, hstep, h⟩ := Option.bind_eq_some_iff.mp h
  have hlater := findInANM_of_not_mem (run_snoc h₀ |>.trans hstep) h hafter
  have hnew : p₀.binder.rowsOf e.1 = [] := by
    cases hfind : p₀.binder.findInANM e.1 with
    | none => exact LiMBinder.rowsOf_of_none hfind
    | some rows => exact absurd rfl (hbefore _ (mem_of_findInANM h₀ (Option.isSome_of_eq_some hfind)) _ List.mem_cons_self)
  rw [step, hd, Option.bind_some] at hstep
  simp only [Operation.isBound, Bool.and_eq_true, decide_eq_true_eq] at hop
  rw [bindEntry, if_neg hop.1, if_neg (Option.isSome_iff_ne_none.mp hop.2), if_neg (by rw [hacc]; decide)] at hstep
  obtain ⟨rows1', -, hstep⟩ := Option.bind_eq_some_iff.mp hstep
  obtain ⟨b', hb', hstep⟩ := Option.bind_eq_some_iff.mp hstep
  cases hstep
  obtain ⟨rows1, rows2, size1, size2, elements, s, hrows1, hrows2, hsize1, hsize2, hnum, hall, hrun, -, rfl⟩ :=
    handleFPOperationBindingProcess_run (by simp [Operation.isBound, hop]) hb'
  rw [run_cons, bindStep_enter, Option.bind_some] at hrun
  have hentered := (wellFormed_bindStep (wellFormed_of_run h₀)
    (bindStep_enter p₀.binder ((I.source1 e.1 d).constants + (I.source2 e.1 d).constants))).1
  obtain ⟨rows, hrows, hgives⟩ := exists_gives_elements hentered (fun a ha => by
    obtain ⟨i, -, src1, src2, -, -, rfl⟩ := exists_of_mem_forall₂ hall ha
    exact ⟨src1, src2, I.junk e.1 i, rfl⟩) hrun
  have hempty : (p₀.binder.entered ((I.source1 e.1 d).constants + (I.source2 e.1 d).constants)).binder.rowsOf e.1 =
      [] := hnew
  rw [hempty, List.nil_append] at hrows
  have hfinal : p.binder.rowsOf e.1 = rows := (congrArg (Option.getD · []) hlater).trans hrows
  have hlength : elements.length = max size1 size2 := by
    have hnum := hnum
    simp only [LiMBinder.numElements, Option.bind_eq_bind] at hnum
    rw [show p₀.binder.findInANM (I.source1 e.1 d).reg = some rows1 from hrows1,
      show p₀.binder.findInANM (I.source2 e.1 d).reg = some rows2 from hrows2] at hnum
    simp only [Option.bind_some, hsize1, hsize2] at hnum
    have hnum := Option.some.inj hnum
    split at hnum <;> omega
  exact ⟨before, e, after, p₀, rows1, rows2, size1, size2, elements, s, rfl, rfl, h₀, hrows1, hrows2, hsize1,
    hsize2, hlength, hall, hrun, hfinal ▸ hgives⟩

end BinderInput

end Octantis
