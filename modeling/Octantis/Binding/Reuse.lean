import Octantis.Binding.Element

/-!
# The reuse of a result

When both operands of an element last went to one row, computed by the operation
at hand, that row is reused. `lastDestMap` records for a row the result of the
first element it was an operand of, and the operation is read from the row that
feeds the result: which operand came first, and whether the two operands are one
row, is forgotten.

## What is proved

* `destinations_of_reaches`: every entry of `lastDestMap` is the row produced by the
  first element that had the row as an operand, and no row is produced twice.
* `reuse_sound_iff`: a reused row was produced by the same operation on the same
  operands, in order unless the operation is commutative, exactly when the
  operands are different and the operation is commutative, or the first element
  that had the first operand had exactly these operands in this order.
* `reversed_subtraction_reused`: `b - a` reuses the row of `a - b`.
-/

namespace Octantis

open Std Lib

variable {b b' : LiMBinder} {operation : Operation} {specifications : List String}
  {src1 src2 dest row other : Name} {w : Way} {base : LiMRow}

/-! ### What the steps do to the destinations -/

/-- The operands of an element that is no shift. -/
def BindingAction.operands : BindingAction → Option (Name × Name)
  | element operation _ _ src1 src2 _ => if operation.isShift then none else some (src1, src2)
  | _ => none

/-- A step that binds the element of an operation on two operands to a new row. -/
structure Produces (t : Transition BinderState BindingAction) (operation : Operation)
    (src1 src2 dest : Name) : Prop where
  act : ∃ specifications destReg junk,
    t.act = .element operation specifications destReg src1 src2 junk
  reserved : t.pre.tmpDestAddr = some dest
  fresh : t.pre.binder.MemArray.findRow dest = none
  bound : (t.post.binder.MemArray.findRow dest).isSome

/-- What a step does to `lastDestMap`: it is kept, and the operands of an element are in it, or the
row an element produces is recorded for its operands. -/
inductive DestEffect (s : BinderState) (a : BindingAction) (s' : BinderState) : Prop where
  | kept (same : s'.binder.lastDestMap = s.binder.lastDestMap)
      (known : ∀ x y, a.operands = some (x, y) →
        (s.binder.lastDestMap[x]?).isSome ∧ (s.binder.lastDestMap[y]?).isSome)
  | produced (operation : Operation) (x y d : Name) (produces : Produces ⟨s, a, s'⟩ operation x y d)
      (operands : a.operands = some (x, y))
      (feeding : s'.binder.feedingType d = some operation) (logic : operation ≠ .load)
      (recorded : s'.binder.lastDestMap = (s.binder.lastDestMap.insertIfNew x d).insertIfNew y d)

/-- Every step keeps the destinations, or records the row it produces. -/
theorem destEffect_bindStep {s s' : BinderState} {a : BindingAction} (hs : s.WellFormed)
    (h : bindStep s a = some s') : DestEffect s a s' := by
  cases a with
  | load destReg ti =>
    obtain ⟨-, h⟩ := Option.ite_none_right_eq_some.mp h
    cases h
    exact .kept rfl (by simp [BindingAction.operands])
  | enter constants =>
    obtain ⟨-, h⟩ := Option.ite_none_right_eq_some.mp h
    cases h
    exact .kept rfl (by simp [BindingAction.operands])
  | leave =>
    obtain ⟨-, h⟩ := Option.ite_none_right_eq_some.mp h
    cases h
    exact .kept rfl (by simp [BindingAction.operands])
  | accumulate operation specifications destReg accumulationList =>
    obtain ⟨hop, hb, b', hb', rfl⟩ := bindStep_accumulate hs h
    obtain ⟨pairs, b₁, row, hrun, -, rfl⟩ := LiMBinder.performAccBinding_run hb hop hb'
    have hsame := (LiMBinder.frame_pairs hb hop hrun).2.1
    exact .kept hsame (by simp [BindingAction.operands])
  | element operation specifications destReg src1 src2 junk =>
    obtain ⟨hop, dest, b', hdest, hn, hle, -, hb', rfl⟩ := bindStep_element hs h
    have fresh : s.binder.MemArray.findRow dest = none := hn.fresh (Nat.le_refl _)
    have freshZero : s.binder.MemArray.findRow s.binder.zeroAddr = none := hn.fresh (by lia)
    have hknown : ∀ d, s.binder.commonDest src1 src2 = some d → ∀ x y,
        (BindingAction.element operation specifications destReg src1 src2 junk).operands = some (x, y) →
        (s.binder.lastDestMap[x]?).isSome ∧ (s.binder.lastDestMap[y]?).isSome := by
      intro d hd x y hxy
      obtain ⟨hd1, hd2⟩ := LiMBinder.commonDest_eq_some hd
      simp only [BindingAction.operands] at hxy
      split at hxy
      · cases hxy
      · cases hxy
        exact ⟨Option.isSome_of_eq_some hd1, Option.isSome_of_eq_some hd2⟩
    rcases LiMBinder.performBinding_cases hb' with
      ⟨d, hd, -, rfl⟩ | ⟨d, op, hd, -, -, rfl⟩ | ⟨-, hshift, hmap⟩ | ⟨-, hshift, hmap⟩
    · refine .kept ?_ (hknown d hd)
      rw [LiMBinder.addNewItemInRefPos_eq]
      rfl
    · exact .kept rfl (hknown d hd)
    · have heff := LiMBinder.mapShift_cases (b := s.binder.addNewItem destReg dest) hs.loads fresh
        freshZero hmap
      exact .kept heff.frame.2.2 (by simp [BindingAction.operands, hshift])
    · obtain ⟨w, row, other, base, t, -, hreal, hrest⟩ :=
        LiMBinder.mapOperation_realizes (b := s.binder.addNewItem destReg dest) fresh freshZero
          (show dest ≠ s.binder.zeroAddr by lia) hmap
      have hf : b'.feedingType dest = some operation := hreal.feedingType rfl
      refine .produced operation src1 src2 dest ⟨⟨specifications, destReg, junk, rfl⟩, hdest, fresh, ?_⟩
        (by simp [BindingAction.operands, hshift]) hf hop ?_
      · exact LiMBinder.findRow_of_feedingType hf
      · rw [hrest]
        rfl

/-! ### The destinations of a run -/

/-- The operands of the first element of the steps that had the row as an operand. -/
def firstUse (uses : List (Name × Name)) (n : Name) : Option (Name × Name) :=
  uses.find? fun use => use.1 = n || use.2 = n

/-- The operands of the elements of a run. -/
def uses (tr : List (Transition BinderState BindingAction)) : List (Name × Name) :=
  tr.filterMap fun t => t.act.operands

/-- The entries of `lastDestMap`, against the steps that led to them. -/
structure Destinations (tr : List (Transition BinderState BindingAction)) (s : BinderState) : Prop where
  wellFormed : s.WellFormed
  kept : ∀ t ∈ tr, t.post.binder.Extends s.binder
  /-- A row recorded was produced by the first element that used the operand. -/
  produced : ∀ n d : Name, s.binder.lastDestMap[n]? = some d →
    ∃ t ∈ tr, ∃ op x y, Produces t op x y d ∧ s.binder.feedingType d = some op ∧
      firstUse (uses tr) n = some (x, y)
  unused : ∀ n : Name, s.binder.lastDestMap[n]? = none → firstUse (uses tr) n = none
  /-- No row is produced twice. -/
  unique : ∀ t ∈ tr, ∀ u ∈ tr, ∀ d op op' x x' y y', Produces t op x y d → Produces u op' x' y' d →
    t.act = u.act

theorem firstUse_append_of_some {l : List (Name × Name)} {n : Name} {p : Name × Name}
    (h : firstUse l n = some p) (l' : List (Name × Name)) : firstUse (l ++ l') n = some p := by
  rw [firstUse, List.find?_append]
  unfold firstUse at h
  rw [h]
  rfl

theorem firstUse_append_of_none {l : List (Name × Name)} {n : Name} (h : firstUse l n = none)
    (l' : List (Name × Name)) : firstUse (l ++ l') n = firstUse l' n := by
  rw [firstUse, List.find?_append]
  unfold firstUse at h
  rw [h]
  rfl

theorem firstUse_singleton_of_ne {n x y : Name} (hx : n ≠ x) (hy : n ≠ y) :
    firstUse [(x, y)] n = none := by
  simp [firstUse, Ne.symm hx, Ne.symm hy]

/-- A step keeps the destinations in accord with the history. -/
theorem Destinations.step {tr : List (Transition BinderState BindingAction)} {s s' : BinderState}
    {a : BindingAction} (hd : Destinations tr s) (h : bindStep s a = some s') :
    Destinations (tr ++ [⟨s, a, s'⟩]) s' := by
  obtain ⟨hs', he⟩ := wellFormed_bindStep hd.wellFormed h
  have huses : uses (tr ++ [⟨s, a, s'⟩]) = uses tr ++ a.operands.toList := by
    simp only [uses, List.filterMap_append]
    cases ha : a.operands <;> simp [ha]
  have hkept : ∀ t ∈ tr ++ [⟨s, a, s'⟩], t.post.binder.Extends s'.binder := by
    intro t ht
    rcases List.mem_append.mp ht with ht | ht
    · exact (hd.kept t ht).trans he
    · rw [List.mem_singleton.mp ht]
      exact .refl _
  have hunique : ∀ t ∈ tr ++ [⟨s, a, s'⟩], ∀ u ∈ tr ++ [⟨s, a, s'⟩], ∀ d op op' x x' y y',
      Produces t op x y d → Produces u op' x' y' d → t.act = u.act := by
    intro t ht u hu d op op' x x' y y' hpt hpu
    -- a row produced before is still there, so that the new step does not produce it
    have hold : ∀ v ∈ tr, ∀ op x y, Produces v op x y d → (s.binder.MemArray.findRow d).isSome :=
      fun v hv _ _ _ hpv => (hd.kept v hv).findRow_isSome hpv.bound
    rcases List.mem_append.mp ht with ht | ht <;> rcases List.mem_append.mp hu with hu | hu
    · exact hd.unique t ht u hu d op op' x x' y y' hpt hpu
    · have hsome := hold t ht op x y hpt
      have hnone := hpu.fresh
      rw [List.mem_singleton.mp hu] at hnone
      rw [hnone] at hsome
      cases hsome
    · have hsome := hold u hu op' x' y' hpu
      have hnone := hpt.fresh
      rw [List.mem_singleton.mp ht] at hnone
      rw [hnone] at hsome
      cases hsome
    · rw [List.mem_singleton.mp ht, List.mem_singleton.mp hu]
  have hprev : ∀ n d : Name, s.binder.lastDestMap[n]? = some d →
      ∃ t ∈ tr ++ [⟨s, a, s'⟩], ∃ op x y, Produces t op x y d ∧ s'.binder.feedingType d = some op ∧
        firstUse (uses (tr ++ [⟨s, a, s'⟩])) n = some (x, y) := by
    intro n d hn
    obtain ⟨t, ht, op, x, y, hp, hf, hu⟩ := hd.produced n d hn
    obtain ⟨op', hop', hf', -⟩ := hd.wellFormed.dests n d hn
    rw [hf, Option.some.injEq] at hf'
    refine ⟨t, List.mem_append_left _ ht, op, x, y, hp, he.feedingType (hf' ▸ hop') hf, ?_⟩
    rw [huses]
    exact firstUse_append_of_some hu _
  cases destEffect_bindStep hd.wellFormed h with
  | kept same known =>
    refine ⟨hs', hkept, fun n d hn => hprev n d (same ▸ hn), fun n hn => ?_, hunique⟩
    rw [same] at hn
    rw [huses, firstUse_append_of_none (hd.unused n hn)]
    cases hops : a.operands with
    | none => rfl
    | some use =>
      obtain ⟨hx, hy⟩ := known use.1 use.2 hops
      refine firstUse_singleton_of_ne ?_ ?_ <;> rintro rfl
      · rw [hn] at hx
        cases hx
      · rw [hn] at hy
        cases hy
  | produced operation x y d produces operands feeding logic recorded =>
    rw [operands] at huses
    refine ⟨hs', hkept, fun n d' hn => ?_, fun n hn => ?_, hunique⟩
    · by_cases hold : s.binder.lastDestMap[n]? = none
      · -- the row recorded is the one produced, and the operand was not used before
        have hcases : d' = d ∧ (n = x ∨ n = y) := by
          rw [recorded] at hn
          rcases getElem?_insertIfNew_eq_some hn with hn | ⟨rfl, rfl⟩
          · rcases getElem?_insertIfNew_eq_some hn with hn | ⟨rfl, rfl⟩
            · rw [hold] at hn
              cases hn
            · exact ⟨rfl, .inl rfl⟩
          · exact ⟨rfl, .inr rfl⟩
        obtain ⟨rfl, hxy⟩ := hcases
        refine ⟨⟨s, a, s'⟩, by simp, operation, x, y, produces, feeding, ?_⟩
        rw [huses, firstUse_append_of_none (hd.unused n hold)]
        rcases hxy with rfl | rfl <;> simp [firstUse]
      · obtain ⟨d₀, hd₀⟩ := Option.ne_none_iff_exists'.mp hold
        have hkeep := he.dests n d₀ hd₀
        rw [hn, Option.some.injEq] at hkeep
        exact hprev n d' (hkeep ▸ hd₀)
    · have hold : s.binder.lastDestMap[n]? = none := by
        by_contra hne
        obtain ⟨d₀, hd₀⟩ := Option.ne_none_iff_exists'.mp hne
        rw [he.dests n d₀ hd₀] at hn
        cases hn
      rw [huses, firstUse_append_of_none (hd.unused n hold)]
      refine firstUse_singleton_of_ne ?_ ?_ <;> rintro rfl <;> rw [recorded] at hn
      · obtain ⟨d₀, hd₀⟩ := exists_getElem?_insertIfNew s.binder.lastDestMap n d
        rw [getElem?_insertIfNew_of_some hd₀] at hn
        cases hn
      · obtain ⟨d₀, hd₀⟩ := exists_getElem?_insertIfNew (s.binder.lastDestMap.insertIfNew x d) n d
        rw [hd₀] at hn
        cases hn

theorem destinations_init (par : ℤ) (optTarget : String) : Destinations [] (.init par optTarget) where
  wellFormed := BinderState.wellFormed_init par optTarget
  kept := by simp
  produced := by simp [BinderState.init, LiMBinder.init]
  unused _ _ := rfl
  unique := by simp

/-- **The destinations of every reachable state** are in accord with the steps that led to it. -/
theorem destinations_of_reaches {par : ℤ} {optTarget : String} {actions : List BindingAction}
    {s : BinderState} (h : Reaches par optTarget actions s) :
    Destinations (history par optTarget actions) s :=
  run_transitions (P := Destinations) (Q := fun _ => True) (destinations_init par optTarget)
    (fun _ _ _ _ _ hd hstep => hd.step hstep) (fun _ _ => trivial) h

/-! ### Sound reuse -/

/-- The element would reuse the row `d`. -/
def LiMBinder.Reuses (b : LiMBinder) (operation : Operation) (src1 src2 d : Name) : Prop :=
  b.commonDest src1 src2 = some d ∧ b.feedingType d = some operation

/-- The row was produced by the operation on the two operands, in order unless it is commutative. -/
def SoundReuse (tr : List (Transition BinderState BindingAction)) (operation : Operation)
    (src1 src2 d : Name) : Prop :=
  ∃ t ∈ tr, Produces t operation src1 src2 d ∨
    operation.isCommutative = true ∧ Produces t operation src2 src1 d

/-- **Reuse is sound** exactly when the operands differ and the operation is commutative, or the
first element that had the first operand had these operands in this order. -/
theorem reuse_sound_iff {par : ℤ} {optTarget : String} {actions : List BindingAction} {s : BinderState}
    {d : Name} (hs : Reaches par optTarget actions s) (hr : s.binder.Reuses operation src1 src2 d) :
    SoundReuse (history par optTarget actions) operation src1 src2 d ↔
      src1 ≠ src2 ∧ operation.isCommutative = true ∨
        firstUse (actions.filterMap BindingAction.operands) src1 = some (src1, src2) := by
  have hd := destinations_of_reaches hs
  have huses : uses (history par optTarget actions) = actions.filterMap BindingAction.operands := by
    have hmap : (history par optTarget actions).map (·.act) = actions := transitions_map_act hs
    calc uses (history par optTarget actions)
        = ((history par optTarget actions).map (·.act)).filterMap BindingAction.operands := by
          rw [List.filterMap_map]
          rfl
      _ = actions.filterMap BindingAction.operands := by rw [hmap]
  obtain ⟨h1, h2⟩ := LiMBinder.commonDest_eq_some hr.1
  obtain ⟨t, ht, op, x, y, hp, hf, hu⟩ := hd.produced src1 d h1
  obtain ⟨t2, ht2, op2, x2, y2, hp2, -, hu2⟩ := hd.produced src2 d h2
  rw [hr.2, Option.some.injEq] at hf
  subst hf
  -- one step produced the row, and both operands are operands of it
  have hsame : ∀ u ∈ history par optTarget actions, ∀ op' x' y', Produces u op' x' y' d →
      x' = x ∧ y' = y := by
    intro u hu' op' x' y' hpu
    obtain ⟨_, _, _, hact⟩ := hp.act
    obtain ⟨_, _, _, hact'⟩ := hpu.act
    have heq := hd.unique t ht u hu' d _ op' x x' y y' hp hpu
    rw [hact, hact'] at heq
    cases heq
    exact ⟨rfl, rfl⟩
  have hmem1 : x = src1 ∨ y = src1 := by
    have := List.find?_some hu
    simpa using this
  have hmem2 : x = src2 ∨ y = src2 := by
    obtain ⟨rfl, rfl⟩ := hsame t2 ht2 op2 x2 y2 hp2
    have := List.find?_some hu2
    simpa using this
  rw [huses] at hu
  constructor
  · rintro ⟨u, hu', hpu | ⟨hcomm, hpu⟩⟩
    · obtain ⟨rfl, rfl⟩ := hsame u hu' _ _ _ hpu
      exact .inr hu
    · obtain ⟨rfl, rfl⟩ := hsame u hu' _ _ _ hpu
      by_cases hne : src1 = src2
      · exact .inr (by rw [hu, hne])
      · exact .inl ⟨hne, hcomm⟩
  · rintro (⟨hne, hcomm⟩ | hfirst)
    · refine ⟨t, ht, ?_⟩
      rcases hmem1 with rfl | rfl
      · have hy : y = src2 := hmem2.resolve_left hne
        exact .inl (hy ▸ hp)
      · have hx : x = src2 := hmem2.resolve_right hne
        exact .inr ⟨hcomm, hx ▸ hp⟩
    · rw [hu, Option.some.injEq, Prod.mk.injEq] at hfirst
      obtain ⟨rfl, rfl⟩ := hfirst
      exact ⟨t, ht, .inl hp⟩

/-- Two rows are loaded and subtracted, and another operation is entered. -/
def subtractedLoads : List BindingAction :=
  twoLoads ++ [.element .sub [] 3 0 4 ⟨1, 0, 0⟩, .leave, .enter 0]

theorem subtractedLoads_isSome : (run bindStep (.init 8 "") subtractedLoads).isSome := by decide +kernel

/-- The same difference again reuses the row soundly. -/
theorem reuse_sound_iff_subtractedLoads :
    ∃ s, Reaches 8 "" subtractedLoads s ∧ s.binder.Reuses .sub 0 4 8 ∧
      SoundReuse (history 8 "" subtractedLoads) .sub 0 4 8 := by
  have hr : ((run bindStep (.init 8 "") subtractedLoads).get subtractedLoads_isSome).binder.Reuses
      .sub 0 4 8 := ⟨by decide +kernel, by decide +kernel⟩
  refine ⟨_, (Option.some_get subtractedLoads_isSome).symm, hr, ?_⟩
  exact (reuse_sound_iff (Option.some_get subtractedLoads_isSome).symm hr).mpr (.inr (by decide))

/-- The reversed difference reuses the row too, which no step computed as such. -/
theorem reversed_subtraction_reused :
    ∃ s, Reaches 8 "" subtractedLoads s ∧ s.tmpDestAddr.isSome ∧ s.binder.Reuses .sub 4 0 8 ∧
      ¬ SoundReuse (history 8 "" subtractedLoads) .sub 4 0 8 := by
  refine ⟨_, (Option.some_get subtractedLoads_isSome).symm, by decide +kernel,
    ⟨by decide +kernel, by decide +kernel⟩, ?_⟩
  rintro ⟨t, ht, ⟨⟨specifications, destReg, junk, hact⟩, -⟩ | ⟨hcomm, -⟩⟩
  · have hmem : t.act ∈ subtractedLoads := by
      rw [← transitions_map_act (Option.some_get subtractedLoads_isSome).symm]
      exact List.mem_map_of_mem ht
    rw [hact] at hmem
    simp [subtractedLoads, twoLoads] at hmem
  · cases hcomm

/-! ### Sound elements -/

/-- What the code does not check of an element: the row that both operands last went to, if there is
one, was computed by this operation from these operands; if there is none, no mux drops an operand. -/
def Lib.Transition.BoundSoundly (tr : List (Transition BinderState BindingAction))
    (step : Transition BinderState BindingAction) : Prop :=
  match step.act with
  | .element operation _ _ src1 src2 _ =>
    step.pre.binder.Resolved operation src1 src2 ∧
      (step.pre.binder.commonDest src1 src2 = none → ¬ step.pre.binder.DropsOperand operation src1 src2) ∧
      ∀ d, step.pre.binder.Reuses operation src1 src2 d → SoundReuse tr operation src1 src2 d
  | .load _ _ | .enter _ | .leave | .accumulate _ _ _ _ => True

/-- An element of two rows with a time that went to no common row, and that gets no mux. -/
def BindingAction.MapsPlainly (b : LiMBinder) : BindingAction → Prop
  | .element operation _ _ src1 src2 _ =>
    b.commonDest src1 src2 = none ∧ b.Resolved operation src1 src2 ∧
      (b.site true operation src1 src2).map (·.1) ≠ some .mux
  | .load _ _ | .enter _ | .leave | .accumulate _ _ _ _ => True

instance (b : LiMBinder) (a : BindingAction) : Decidable (a.MapsPlainly b) :=
  match a with
  | .element operation _ _ src1 src2 _ => inferInstanceAs (Decidable (b.commonDest src1 src2 = none ∧
      b.Resolved operation src1 src2 ∧ (b.site true operation src1 src2).map (·.1) ≠ some .mux))
  | .load _ _ | .enter _ | .leave | .accumulate _ _ _ _ => .isTrue trivial

/-- Such an element is bound soundly. -/
theorem Lib.Transition.boundSoundly_of_mapsPlainly {step : Transition BinderState BindingAction}
    (h : step.act.MapsPlainly step.pre.binder) (tr : List (Transition BinderState BindingAction)) :
    step.BoundSoundly tr := by
  unfold Transition.BoundSoundly
  split
  · next operation specifications destReg src1 src2 junk hact =>
    rw [hact] at h
    obtain ⟨hnone, hresolved, hway⟩ := h
    refine ⟨hresolved, ?_, fun d hd => ?_⟩
    · rintro - ⟨r, x, row, hsite, -⟩
      rw [hsite] at hway
      exact hway rfl
    · cases hnone.symm.trans hd.1
  all_goals trivial

end Octantis
