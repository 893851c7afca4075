import Octantis.Binding.WithoutShifts

/-!
# The shape of the rows

The code generators choose the template of a row from its type and the number of its connections.

## The model

`Shaped` is the shape of the connections of a row of the array. `OnlyAppends` is what the binding of
one more operation may do to the rows that are there.

## What is proved

* `shaped_invariant`: the loads and the mappings keep the shape;
* `shaped_of_reaches`: every row of a state reached without shifts has it, and every step of
  the run only appends, to rows of at most two connections.
-/

namespace Octantis

open Std Lib

variable {b b' : LiMBinder} {operation : Operation} {specifications : List String}
  {src1 src2 dest row other : Name} {w : Way} {base : LiMRow} {t : ℤ} {A : LiMArray}
  {F : FiniteStateMachine}

/-- **The shape of a row**: one connection when it is a memory row, two or three when it has logic,
each with its type; all are rows, but for the memory input of a cell that has none; an output of
logic comes from a row with logic. -/
structure Shaped (A : LiMArray) (row : LiMRow) : Prop where
  types : row.inputConnectionsType.length = row.inputConnections.length
  load : row.rowType = .load → row.inputConnections.length = 1
  logic : row.rowType ≠ .load → row.inputConnections.length = 2 ∨ row.inputConnections.length = 3
  head : ∃ m, row.inputConnections.head? = some m ∧
    (m = noInput ∧ row.inputConnectionsType.head? = some .none ∨ (A.findRow m).isSome)
  rest : ∀ m ∈ row.logicInputs, (A.findRow m).isSome
  output : row.inputConnectionsType.head? = some .OLiM →
    ∃ m r, row.inputConnections.head? = some m ∧ A.findRow m = some r ∧ r.rowType ≠ .load

/-- The rows of the first array are in the second one: with the same type, once they have logic, and
with the connections they had, in their places; more are appended only to rows of at most two. -/
def LiMArray.OnlyAppends (A A' : LiMArray) : Prop :=
  ∀ n row, A.findRow n = some row → ∃ row', A'.findRow n = some row' ∧
    (row.rowType ≠ .load → row'.rowType = row.rowType) ∧
    row.inputConnections <+: row'.inputConnections ∧ row.inputConnectionsType <+: row'.inputConnectionsType ∧
    (row'.inputConnections ≠ row.inputConnections → row.inputConnections.length ≤ 2)

/-! ### One mapping -/

/-- The shape of a row is kept when the array is extended. -/
theorem Shaped.mono {row : LiMRow} (h : Shaped b.MemArray row)
    (hext : ∀ n row, b.MemArray.findRow n = some row → ∃ row', A.findRow n = some row' ∧ row.Extends row') :
    Shaped A row := by
  have hsome : ∀ n, (b.MemArray.findRow n).isSome → (A.findRow n).isSome := by
    intro n hn
    obtain ⟨r, hr⟩ := Option.isSome_iff_exists.mp hn
    obtain ⟨r', hr', -⟩ := hext n r hr
    exact Option.isSome_of_eq_some hr'
  refine ⟨h.types, h.load, h.logic, ?_, fun m hm => hsome m (h.rest m hm), fun hout => ?_⟩
  · obtain ⟨m, hm, hcases⟩ := h.head
    exact ⟨m, hm, hcases.imp id (hsome m)⟩
  · obtain ⟨m, r, hm, hr, hlogic⟩ := h.output hout
    obtain ⟨r', hr', he⟩ := hext m r hr
    exact ⟨m, r', hm, hr', by rw [he.type hlogic]; exact hlogic⟩

/-- A row with logic that has one connection or two, and gets one more. -/
theorem Shaped.connect {old : LiMRow} (h : Shaped A old) (hother : (A.findRow other).isSome)
    (hlen : old.inputConnections.length ≤ 2) (hlogic : base.rowType ≠ .load)
    (hconn : base.inputConnections = old.inputConnections)
    (htypes : base.inputConnectionsType = old.inputConnectionsType)
    (hone : base.inputConnections.length = 1 ∨ other ∉ base.inputConnections) :
    Shaped A (base.connect other .OC) := by
  obtain ⟨m, hm, hcases⟩ := h.head
  have hpos : 1 ≤ old.inputConnections.length := List.length_pos_of_mem (List.mem_of_head? hm)
  obtain ⟨c, hc⟩ : ∃ c, old.inputConnectionsType.head? = some c := by
    cases hcs : old.inputConnectionsType with
    | cons c cs => exact ⟨c, rfl⟩
    | nil =>
      have := h.types
      rw [hcs, List.length_nil] at this
      omega
  rw [LiMRow.connect, if_pos hone]
  refine ⟨?_, fun hload => absurd hload hlogic, fun _ => ?_, ⟨m, ?_, ?_⟩, fun n hn => ?_, fun hout => ?_⟩
  · simp [hconn, htypes, h.types]
  · simp only [List.length_append, List.length_singleton, hconn]
    omega
  · simp only [hconn, List.head?_append, hm]
    rfl
  · simpa only [htypes, List.head?_append, hc, Option.some_or] using hcases
  · have hne : old.inputConnections ≠ [] := List.ne_nil_of_length_pos hpos
    simp only [LiMRow.logicInputs, hconn, List.tail_append_of_ne_nil hne, List.mem_append,
      List.mem_singleton] at hn
    rcases hn with hn | rfl
    · exact h.rest n hn
    · exact hother
  · simp only [htypes, List.head?_append, hc, Option.some_or] at hout
    obtain ⟨m', r, hm', hr, hlogic'⟩ := h.output (hc ▸ hout)
    refine ⟨m', r, ?_, hr, hlogic'⟩
    simp only [hconn, List.head?_append, hm']
    rfl

namespace Mapping

variable (h : Mapping b operation specifications src1 src2 dest w row other base t A F)
include h

/-- Both operands are rows. -/
theorem operands_isSome : (A.findRow src1).isSome ∧ (A.findRow src2).isSome ∧ (A.findRow other).isSome := by
  obtain ⟨t1, t2, h1, h2, -⟩ := LiMBinder.nextTime_eq_some h.realizes.time
  obtain ⟨tx, hx, -⟩ := h.realizes.getTime_other
  have hsome : ∀ n t, b.FSMLim.getTime n = some t → (A.findRow n).isSome := by
    intro n t ht
    obtain ⟨r, hr⟩ := Option.isSome_iff_exists.mp ((h.regular.timed n).mpr (Option.isSome_of_eq_some ht))
    obtain ⟨r', hr', -⟩ := h.realizes.rows_extend h.ne_load n r hr
    exact Option.isSome_of_eq_some hr'
  exact ⟨hsome src1 t1 h1, hsome src2 t2 h2, hsome other tx hx⟩

/-- The shape of the row with the logic. -/
theorem shaped_row (hb : ∀ n row, b.MemArray.findRow n = some row → Shaped b.MemArray row) :
    Shaped A (base.connect other .OC) := by
  have hext := h.realizes.rows_extend h.ne_load
  obtain ⟨h1, h2, hother⟩ := h.operands_isSome
  cases h.realizes.site with
  | @convert _ _ old operands found convertible =>
    have hlen := (h.loads row old found (LiMRow.rowType_of_convertible convertible)).2
    show Shaped A ((old.withLogic operation specifications).connect other .OC)
    exact ((hb row old found).mono hext).connect hother (by omega) h.ne_load rfl rfl (.inl hlen)
  | mux operands found type size =>
    have hlogic : base.rowType ≠ .load := by
      rw [type]
      exact h.ne_load
    have hold := (hb row base found).mono hext
    by_cases hin : other ∈ base.inputConnections
    · have hnot : ¬ (base.inputConnections.length = 1 ∨ other ∉ base.inputConnections) := by
        rintro (hone | hout)
        · have := h.regular.arity row base found hlogic
          omega
        · exact hout hin
      rwa [LiMRow.connect, if_neg hnot]
    · exact hold.connect hother (by omega) hlogic rfl rfl (.inr hin)
  | copy =>
    refine ⟨rfl, fun hload => absurd hload h.ne_load, fun _ => .inl rfl, ⟨src1, rfl, .inr h1⟩, ?_, ?_⟩
    · intro n hn
      obtain rfl : n = src2 := List.mem_singleton.mp hn
      exact h2
    · intro hout
      cases hout

/-- The shape of every row after a mapping. -/
theorem shaped (hb : ∀ n row, b.MemArray.findRow n = some row → Shaped b.MemArray row) {n : Name}
    {new : LiMRow}
    (hn : A.findRow n = some new) : Shaped A new := by
  rw [h.realizes.rows] at hn
  split at hn
  · cases hn
    have hrow := h.realizes.findRow_row
    have hlogic : (base.connect other .OC).rowType ≠ .load := by
      rw [LiMRow.connect_rowType, h.realizes.site.rowType]
      exact h.ne_load
    refine ⟨rfl, fun _ => rfl, fun hload => absurd rfl hload,
      ⟨row, rfl, .inr (Option.isSome_of_eq_some hrow)⟩, fun m hm => ?_, fun _ => ⟨row, _, rfl, hrow, hlogic⟩⟩
    cases hm
  split at hn
  · cases hn
    exact h.shaped_row hb
  · exact (hb n new hn).mono (h.realizes.rows_extend h.ne_load)

/-- A mapping only appends. -/
theorem onlyAppends (hl : ∀ n row, b.MemArray.findRow n = some row → Shaped b.MemArray row) :
    b.MemArray.OnlyAppends A := by
  intro n old hold
  obtain ⟨new, hnew, hext⟩ := h.realizes.rows_extend h.ne_load n old hold
  refine ⟨new, hnew, hext.type, hext.connections, hext.types, fun hne => ?_⟩
  -- the shape of the row after the mapping bounds the connections it had
  have hlen : new.inputConnections.length ≤ 3 := by
    have hshape := h.shaped hl hnew
    by_cases hload : new.rowType = .load
    · have := hshape.load hload
      omega
    · have := hshape.logic hload
      omega
  obtain ⟨more, hmore⟩ := hext.connections
  have hpos : 1 ≤ more.length := by
    rw [Nat.one_le_iff_ne_zero, ne_eq, List.length_eq_zero_iff]
    rintro rfl
    exact hne (by rw [← hmore, List.append_nil])
  rw [← hmore, List.length_append] at hlen
  omega

end Mapping

/-- **The invariant of the shape.** -/
theorem shaped_invariant : BinderInvariant (fun _ => True) (fun _ => True)
    (fun A _ => ∀ n row, A.findRow n = some row → Shaped A row) where
  empty := by simp
  load b destReg ti _ hb _ h := by
    intro n row hrow
    rw [LiMBinder.findRow_bindLoad hb.named] at hrow
    split at hrow
    · cases hrow
      refine ⟨rfl, fun _ => rfl, fun hload => absurd rfl hload, ⟨noInput, rfl, .inl ⟨rfl, rfl⟩⟩, ?_, ?_⟩
      · intro m hm
        cases hm
      · intro hout
        cases hout
    · exact (h n row hrow).mono (LiMBinder.wellFormed_bindLoad hb destReg ti).2.rows
  map _ hb h := fun _ _ hn => h.shaped hb hn

/-! ### Every step -/

namespace LiMArray.OnlyAppends

theorem refl (A : LiMArray) : A.OnlyAppends A :=
  fun _ row h => ⟨row, h, fun _ => rfl, List.prefix_rfl, List.prefix_rfl, fun hne => absurd rfl hne⟩

theorem trans {A₁ A₂ A₃ : LiMArray} (h₁ : A₁.OnlyAppends A₂) (h₂ : A₂.OnlyAppends A₃) :
    A₁.OnlyAppends A₃ := by
  intro n row hrow
  obtain ⟨row₂, hrow₂, type₂, conns₂, types₂, few₂⟩ := h₁ n row hrow
  obtain ⟨row₃, hrow₃, type₃, conns₃, types₃, few₃⟩ := h₂ n row₂ hrow₂
  refine ⟨row₃, hrow₃, fun hlogic => ?_, conns₂.trans conns₃, types₂.trans types₃, fun hne => ?_⟩
  · have heq := type₂ hlogic
    rw [type₃ (heq ▸ hlogic), heq]
  · by_cases h : row₂.inputConnections = row.inputConnections
    · rw [← h] at hne ⊢
      exact few₃ hne
    · exact few₂ h

end LiMArray.OnlyAppends

/-- A load only adds a row. -/
theorem LiMBinder.onlyAppends_bindLoad (hb : b.WellFormed) (destReg : Reg) (ti : ℤ) :
    b.MemArray.OnlyAppends (b.bindLoad destReg ti).MemArray := by
  intro n row hrow
  refine ⟨row, ?_, fun _ => rfl, List.prefix_rfl, List.prefix_rfl, fun hne => absurd rfl hne⟩
  rw [findRow_bindLoad hb.named, if_neg, hrow]
  rintro rfl
  rw [hb.freshZero] at hrow
  cases hrow

/-- The pairs of an accumulation only append. -/
theorem LiMBinder.onlyAppends_pairs {pairs : List (Name × Name)} (hb : b.WellFormed)
    (hr : Regular b.MemArray b.FSMLim) (hop : operation ≠ .load)
    (hshape : ∀ n row, b.MemArray.findRow n = some row → Shaped b.MemArray row)
    (h : run (pairStep operation specifications) b pairs = some b') : b.MemArray.OnlyAppends b'.MemArray := by
  refine (run_induction (P := fun pairs b' => run (pairStep operation specifications) b pairs = some b' ∧
    b.MemArray.OnlyAppends b'.MemArray) ⟨rfl, .refl _⟩ ?_ h).2
  rintro before b₁ pair b₂ hrun ⟨-, hbefore⟩ hstep
  refine ⟨by rw [run_snoc hrun, hstep], ?_⟩
  obtain ⟨⟨b₂, tmpName⟩, hpair, rfl⟩ := Option.map_eq_some_iff.mp hstep
  obtain ⟨w, row, other, base, t, hm⟩ := mapping_bindPair (wellFormed_pairs hb hop hrun).1
    (regular_pairs hb hr hop hrun) hop hpair
  exact hbefore.trans (hm.onlyAppends (shaped_invariant.pairs hb hr hop trivial hshape hrun))

/-- The step rule of the shape. -/
theorem onlyAppends_bindStep {s s' : BinderState} {a : BindingAction} (hs : s.WellFormed)
    (hr : Regular s.binder.MemArray s.binder.FSMLim)
    (hshape : ∀ n row, s.binder.MemArray.findRow n = some row → Shaped s.binder.MemArray row)
    (ha : a.noShift) (h : bindStep s a = some s') : s.binder.MemArray.OnlyAppends s'.binder.MemArray := by
  cases a with
  | load destReg ti =>
    obtain ⟨hb, rfl⟩ := bindStep_load hs h
    exact LiMBinder.onlyAppends_bindLoad hb destReg ti
  | enter constants =>
    obtain ⟨-, h⟩ := Option.ite_none_right_eq_some.mp h
    cases h
    exact .refl _
  | element operation specifications destReg src1 src2 junk =>
    obtain ⟨dest, -, ⟨-, hA, -⟩ | ⟨-, w, row, other, base, t, hm⟩⟩ := mapping_element hs hr ha h
    · rw [hA]
      exact .refl _
    · have happ := hm.onlyAppends hshape
      exact happ
  | leave =>
    obtain ⟨-, h⟩ := Option.ite_none_right_eq_some.mp h
    cases h
    exact .refl _
  | accumulate operation specifications destReg accumulationList =>
    obtain ⟨hop, hb, b', hb', rfl⟩ := bindStep_accumulate hs h
    obtain ⟨pairs, b₁, row, hrun, -, rfl⟩ := LiMBinder.performAccBinding_run hb hop hb'
    have happ := LiMBinder.onlyAppends_pairs hb hr hop hshape hrun
    exact happ

/-- Every row of a state reached without shifts has the shape. -/
theorem shaped_of_findRow {par : ℤ} {optTarget : String} {actions : List BindingAction} {s : BinderState}
    (hshift : ∀ a ∈ actions, a.noShift) (h : Reaches par optTarget actions s) {n : Name} {row : LiMRow}
    (hrow : s.binder.MemArray.findRow n = some row) : Shaped s.binder.MemArray row :=
  shaped_invariant.of_reaches hshift (fun a _ => by cases a <;> trivial) h n row hrow

/-- **The shape of the rows of a run without shifts**: every row has it, and every step, and every
later state of the run, only appends to the rows that are there. -/
theorem shaped_of_reaches {par : ℤ} {optTarget : String} {actions : List BindingAction} {s : BinderState}
    (hshift : ∀ a ∈ actions, a.noShift) (h : Reaches par optTarget actions s) :
    (∀ n row, s.binder.MemArray.findRow n = some row → Shaped s.binder.MemArray row) ∧
    (∀ step ∈ history par optTarget actions,
      step.pre.binder.MemArray.OnlyAppends step.post.binder.MemArray) ∧
    ∀ before s₀, before <+: actions → Reaches par optTarget before s₀ →
      s₀.binder.MemArray.OnlyAppends s.binder.MemArray := by
  have hstep : ∀ before s₀ a s', (∀ b ∈ before ++ [a], b.noShift) → Reaches par optTarget before s₀ →
      bindStep s₀ a = some s' → s₀.binder.MemArray.OnlyAppends s'.binder.MemArray := by
    intro before s₀ a s' hb hrun hstep
    have hbefore : ∀ b ∈ before, b.noShift := fun b hmem => hb b (List.mem_append_left _ hmem)
    exact onlyAppends_bindStep (wellFormed_of_reaches hrun) (regular_of_reaches hbefore hrun)
      (fun n row => shaped_of_findRow hbefore hrun) (hb a (by simp)) hstep
  refine ⟨fun n row => shaped_of_findRow hshift h, fun step hmem => ?_, fun before s₀ hbefore hrun => ?_⟩
  · have hact := mem_of_mem_transitions hmem
    obtain ⟨before, hbefore, hrun, hpost⟩ := exists_run_of_mem_transitions hmem
    refine hstep before _ _ _ (fun b hb => ?_) hrun hpost
    rcases List.mem_append.mp hb with hb | hb
    · exact hshift b (hbefore.subset hb)
    · exact hshift b (List.mem_singleton.mp hb ▸ hact)
  · obtain ⟨after, rfl⟩ := hbefore
    have hafter : run bindStep s₀ after = some s := by
      rwa [Reaches, run_append, hrun, Option.bind_some] at h
    refine (run_induction (P := fun as s' => (∀ b ∈ before ++ as, b.noShift) →
      s₀.binder.MemArray.OnlyAppends s'.binder.MemArray) (fun _ => .refl _) ?_ hafter) hshift
    intro as s₁ a s₂ hrun₁ ih hpost hall
    rw [← List.append_assoc] at hall
    refine (ih fun b hb => hall b (List.mem_append_left _ hb)).trans
      (hstep (before ++ as) s₁ a s₂ hall ?_ hpost)
    rw [Reaches, run_append, hrun, Option.bind_some, hrun₁]

/-- Sums behind a mux, and a sum of a row with itself. -/
def sharedRows : List BindingAction :=
  [.load 1 0, .load 2 0, .load 3 0,
    .enter 0, .element .add [] 4 0 4 ⟨1, 0, 0⟩, .element .add [] 4 8 8 ⟨1, 0, 0⟩,
    .element .add [] 4 4 8 ⟨1, 0, 0⟩, .leave]

theorem sharedRows_isSome : (run bindStep (.init 8 "") sharedRows).isSome := by decide +kernel

/-- Row 8 feeds two sums, and gets its second logic input behind a mux. -/
theorem shaped_of_reaches_sharedRows :
    ∃ s row, Reaches 8 "" sharedRows s ∧ s.binder.MemArray.findRow 8 = some row ∧
      row.inputConnections = [noInput, 8, 4] ∧ Shaped s.binder.MemArray row := by
  have hrow : (((run bindStep (.init 8 "") sharedRows).get sharedRows_isSome).binder.MemArray.findRow 8).map
      (·.inputConnections) = some [noInput, 8, 4] := by decide +kernel
  obtain ⟨row, hrow, hconn⟩ := Option.map_eq_some_iff.mp hrow
  exact ⟨_, row, (Option.some_get sharedRows_isSome).symm, hrow, hconn,
    (shaped_of_reaches (by decide) (Option.some_get sharedRows_isSome).symm).1 8 row hrow⟩

end Octantis
