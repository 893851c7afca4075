import Octantis.Binding.AccumulationSum
import Octantis.Binding.Placement
import Octantis.Binding.Reuse

/-!
# The binder follows the placement

The run of the binder over a table that can be placed, against its placement: `Describes` gives
every slot the name of a row.

## What is proved

* `Describes.element`: an element that can be placed is bound, to the slot of the placement, and
  soundly;
* `Describes.bindLoad`, `Describes.entry`: so are the rows of a load, and the elements of an entry;
* `describes_run`: the loop over a table that can be placed ends, in a run that its placement
  describes.
-/

namespace Octantis

open Std Lib

/-! ### The run of the binder -/

variable {P P' : Placement} {par : ℤ} {optTarget : String} {actions : List BindingAction}
  {s s' : BinderState} {name : ℕ → Name} {operation : Operation} {specifications : List String} {k : Reg}
  {x y : ℕ} {dest : Name}

/-- **The placement describes the run**: the slots of a register are its rows, under names of their
own, with the logic and the first results of the slots; a result was produced by a step of the run
from the slots that it was made of; and every element was bound soundly. -/
structure Placement.Describes (P : Placement) (name : ℕ → Name) (par : ℤ) (optTarget : String)
    (actions : List BindingAction) (s : BinderState) : Prop where
  reaches : Reaches par optTarget actions s
  noShift : ∀ a ∈ actions, a.noShift
  rows : ∀ k, s.binder.findInANM k = if P.slots k = [] then none else some ((P.slots k).map name)
  injective : ∀ d < P.size, ∀ e < P.size, name d = name e → d = e
  logic : ∀ d < P.size, ∃ row, s.binder.MemArray.findRow (name d) = some row ∧
    row.rowType = (P.logic d).getD .load
  ne_load : ∀ d op, P.logic d = some op → op ≠ .load
  dest : ∀ d < P.size, s.binder.lastDestMap[name d]? = (P.dest d).map name
  unused : ∀ n, s.binder.MemArray.findRow n = none → s.binder.lastDestMap[n]? = none
  produced : ∀ d op x y, P.made d = some (op, x, y) → s.binder.feedingType (name d) = some op ∧
    ∃ t ∈ history par optTarget actions, Produces t op (name x) (name y) (name d)
  loaded : (∀ a ∈ actions, a.scheduled) → ∀ d < P.size, P.made d = none →
    s.binder.FSMLim.getTime (name d) = some 0
  sound : ∀ t ∈ history par optTarget actions, t.BoundSoundly (history par optTarget actions)
  size : s.binder.MemArray.AtMostTwo

/-- What is bound soundly is so in a longer run. -/
theorem Lib.Transition.BoundSoundly.mono {tr tr' : List (Transition BinderState BindingAction)}
    {step : Transition BinderState BindingAction} (h : step.BoundSoundly tr) (hsub : tr ⊆ tr') :
    step.BoundSoundly tr' := by
  unfold Transition.BoundSoundly at h ⊢
  split at h
  · refine ⟨h.1, h.2.1, fun d hd => ?_⟩
    obtain ⟨t, ht, hproduces⟩ := h.2.2 d hd
    exact ⟨t, hsub ht, hproduces⟩
  all_goals trivial

namespace Placement.Describes

variable (h : P.Describes name par optTarget actions s)
include h

theorem row_isSome {d : ℕ} (hd : d < P.size) : (s.binder.MemArray.findRow (name d)).isSome := by
  obtain ⟨row, hrow, -⟩ := h.logic d hd
  exact Option.isSome_of_eq_some hrow

/-- A name that is no row is the name of no slot. -/
theorem name_ne {n : Name} (hn : s.binder.MemArray.findRow n = none) {d : ℕ} (hd : d < P.size) : name d ≠ n := by
  rintro rfl
  have hsome := h.row_isSome hd
  rw [hn] at hsome
  cases hsome

/-- The slots have names of their own, with a new one. -/
theorem injective_update (hn : s.binder.MemArray.findRow dest = none) : ∀ d < P.size + 1, ∀ e < P.size + 1,
    Function.update name P.size dest d = Function.update name P.size dest e → d = e := by
  intro d hd e he heq
  rcases Nat.lt_succ_iff_lt_or_eq.mp hd with hd | rfl <;> rcases Nat.lt_succ_iff_lt_or_eq.mp he with he | rfl
  · rw [Function.update_of_ne (Nat.ne_of_lt hd), Function.update_of_ne (Nat.ne_of_lt he)] at heq
    exact h.injective d hd e he heq
  · rw [Function.update_of_ne (Nat.ne_of_lt hd), Function.update_self] at heq
    exact absurd heq (h.name_ne hn hd)
  · rw [Function.update_of_ne (Nat.ne_of_lt he), Function.update_self] at heq
    exact absurd heq.symm (h.name_ne hn he)
  · rfl

theorem regular : Regular s.binder.MemArray s.binder.FSMLim := regular_of_reaches h.noShift h.reaches

/-- The row of a slot can be given logic exactly when the slot has none. -/
theorem convertible_iff {d : ℕ} (hd : d < P.size) {row : LiMRow}
    (hrow : s.binder.MemArray.findRow (name d) = some row) : row.convertible = true ↔ P.logic d = none := by
  obtain ⟨row', hrow', htype⟩ := h.logic d hd
  rw [hrow, Option.some.injEq] at hrow'
  subst hrow'
  constructor
  · intro hconv
    cases hlogic : P.logic d with
    | none => rfl
    | some op =>
      rw [LiMRow.rowType_of_convertible hconv, hlogic, Option.getD_some] at htype
      exact absurd htype.symm (h.ne_load d op hlogic)
  · intro hlogic
    rw [hlogic, Option.getD_none] at htype
    have hadditional := ((wellFormed_of_reaches h.reaches).loads (name d) row hrow htype).1
    simp [LiMRow.convertible, LiMArray.checkIfRowIsLiM, htype, hadditional]

/-- The slots that both operands went to are the rows. -/
theorem commonDest_eq (hx : x < P.size) (hy : y < P.size) :
    s.binder.commonDest (name x) (name y) = (P.commonDest x y).map name := by
  rw [LiMBinder.commonDest, h.dest x hx, h.dest y hy, Placement.commonDest]
  cases hdx : P.dest x with
  | none => rfl
  | some d =>
    cases hdy : P.dest y with
    | none => rfl
    | some e =>
      simp only [Option.map_some]
      by_cases hde : d = e
      · rw [if_pos hde, if_pos (congrArg name hde), Option.map_some]
      · have hname : name d ≠ name e := fun heq =>
          hde (h.injective d (P.dest_lt x d hdx).2 e (P.dest_lt y e hdy).2 heq)
        rw [if_neg hde, if_neg hname, Option.map_none]

/-- The rows of the operands have a time. -/
theorem nextTime_isSome (hx : x < P.size) (hy : y < P.size) :
    (s.binder.FSMLim.getTime (name x)).isSome ∧ (s.binder.FSMLim.getTime (name y)).isSome :=
  ⟨(h.regular.timed _).mp (h.row_isSome hx), (h.regular.timed _).mp (h.row_isSome hy)⟩

/-- Where the logic goes: to the row of the slot that the placement gives it. -/
theorem site_eq {logic : ℕ → Option Operation} (hx : x < P.size) (hy : y < P.size)
    (hl : P.logicAt operation x y = some logic) :
    ∃ w row other, s.binder.site true operation (name x) (name y) = some (w, row, other) ∧
      (w = .convert ∧ (∃ d, d < P.size ∧ row = name d ∧ logic = Function.update P.logic d (some operation)) ∨
        w = .copy ∧ logic = P.logic) := by
  obtain ⟨rowx, hrowx, htypex⟩ := h.logic x hx
  obtain ⟨rowy, hrowy, htypey⟩ := h.logic y hy
  have hconvx := h.convertible_iff hx hrowx
  have hconvy := h.convertible_iff hy hrowy
  simp only [LiMBinder.site, hrowx, hrowy, Option.bind_eq_bind, Option.bind_some]
  rcases Placement.logicAt_cases hl with ⟨hnone, rfl⟩ | ⟨hsome, hnone, rfl⟩ | ⟨hy', hx', hney, hnex, rfl⟩
  · rw [if_pos (hconvy.mpr hnone)]
    exact ⟨_, _, _, rfl, .inl ⟨rfl, y, hy, rfl, rfl⟩⟩
  · rw [if_neg (fun hc => hsome (hconvy.mp hc)), if_pos (hconvx.mpr hnone)]
    exact ⟨_, _, _, rfl, .inl ⟨rfl, x, hx, rfl, rfl⟩⟩
  · obtain ⟨opx, hopx⟩ := Option.ne_none_iff_exists'.mp hx'
    obtain ⟨opy, hopy⟩ := Option.ne_none_iff_exists'.mp hy'
    rw [hopx, Option.getD_some] at htypex
    rw [hopy, Option.getD_some] at htypey
    have hneqx : rowx.rowType ≠ operation := fun heq => hnex (hopx.trans (congrArg some (htypex.symm.trans heq)))
    have hneqy : rowy.rowType ≠ operation := fun heq => hney (hopy.trans (congrArg some (htypey.symm.trans heq)))
    rw [if_neg (fun hc => hy' (hconvy.mp hc)), if_neg (fun hc => hx' (hconvx.mp hc)),
      if_neg (fun hc => hneqy hc.2.1), if_neg (fun hc => hneqx hc.2.1)]
    exact ⟨_, _, _, rfl, .inr ⟨rfl, rfl⟩⟩

/-- The rows of a register. -/
theorem rowsOf_eq (k : Reg) : s.binder.rowsOf k = (P.slots k).map name := by
  have hrows : s.binder.rowsOf k = (s.binder.findInANM k).getD [] := rfl
  rw [hrows, h.rows k]
  split
  · next hnil => rw [hnil]; rfl
  · rfl

/-- The rows of the registers, when a row becomes one of a register. -/
theorem findInANM_eq {b : LiMBinder} {name' : ℕ → Name} {d : ℕ} {n : Name} {P' : Placement}
    (hslots : P'.slots = Function.update P.slots k (P.slots k ++ [d])) (hn : name' d = n)
    (hname : ∀ e < P.size, name' e = name e)
    (hb : ∀ reg, b.findInANM reg =
      if reg = k then some (s.binder.rowsOf k ++ [n]) else s.binder.findInANM reg) (reg : Reg) :
    b.findInANM reg = if P'.slots reg = [] then none else some ((P'.slots reg).map name') := by
  have hmap : ∀ reg, (P.slots reg).map name' = (P.slots reg).map name := fun reg =>
    List.map_congr_left fun e he => hname e (P.slots_lt reg e he)
  rw [hb, hslots, Function.update_apply]
  by_cases hreg : reg = k
  · rw [if_pos hreg, if_pos hreg, if_neg (by simp), List.map_append, hmap, h.rowsOf_eq, List.map_singleton, hn]
  · rw [if_neg hreg, if_neg hreg, hmap, h.rows]

/-- The transitions of one more step. -/
theorem history_snoc {a : BindingAction} (hstep : bindStep s a = some s') :
    history par optTarget (actions ++ [a]) = history par optTarget actions ++ [⟨s, a, s'⟩] :=
  transitions_snoc h.reaches hstep

theorem noShift_snoc {a : BindingAction} (ha : a.noShift) : ∀ b ∈ actions ++ [a], b.noShift := by
  intro b hb
  rcases List.mem_append.mp hb with hb | hb
  · exact h.noShift b hb
  · rw [List.mem_singleton.mp hb]
    exact ha

omit h in
theorem scheduled_of_snoc {a : BindingAction} (hs : ∀ b ∈ actions ++ [a], b.scheduled) :
    ∀ b ∈ actions, b.scheduled := fun b hb => hs b (List.mem_append_left _ hb)

/-- The elements of one more step are bound soundly when that of the step is. -/
theorem sound_snoc {a : BindingAction} (hstep : bindStep s a = some s')
    (hsound : Transition.BoundSoundly (history par optTarget actions) ⟨s, a, s'⟩) :
    ∀ t ∈ history par optTarget (actions ++ [a]), t.BoundSoundly (history par optTarget (actions ++ [a])) := by
  rw [h.history_snoc hstep]
  intro t ht
  rcases List.mem_append.mp ht with ht | ht
  · exact (h.sound t ht).mono (List.subset_append_left _ _)
  · rw [List.mem_singleton.mp ht]
    exact hsound.mono (List.subset_append_left _ _)

/-- **An element that reuses a result.** -/
theorem element_reuse {d : ℕ} (hx : x < P.size) (hy : y < P.size) (hdest : s.tmpDestAddr = some dest)
    (hbound : operation.isBound = true) (hshift : operation.isShift = false) (hd : d < P.size)
    (hcommon : P.commonDest x y = some d)
    (hmade : P.made d = some (operation, x, y) ∨
      operation.isCommutative = true ∧ P.made d = some (operation, y, x))
    (specifications : List String) (junk : Indeterminate) :
    ∃ s', bindStep s (.element operation specifications k (name x) (name y) junk) = some s' ∧
      s'.tmpDestAddr.isSome ∧
      (P.reuse k d hd).Describes name par optTarget
        (actions ++ [.element operation specifications k (name x) (name y) junk]) s' := by
  have hwf := wellFormed_of_reaches h.reaches
  obtain ⟨hn, hle, -⟩ := hwf.named_of_reserved hdest
  have hcommon' : s.binder.commonDest (name x) (name y) = some (name d) := by
    rw [h.commonDest_eq hx hy, hcommon, Option.map_some]
  have hfeeding : s.binder.feedingType (name d) = some operation := by
    rcases hmade with hmade | ⟨-, hmade⟩
    · exact (h.produced d _ _ _ hmade).1
    · exact (h.produced d _ _ _ hmade).1
  obtain ⟨s', hs', hA, hF, hmap⟩ : ∃ s', s.bindElement operation specifications k (name x) (name y) junk = some s' ∧ _ :=
    bindElement_reuse junk hdest hcommon' hfeeding
  have hstep : bindStep s (.element operation specifications k (name x) (name y) junk) = some s' := by
    rw [bindStep, if_pos hbound]
    exact hs'
  have hlast : s'.binder.lastDestMap = s.binder.lastDestMap := by
    cases destEffect_bindStep hwf hstep with
    | kept same => exact same
    | produced op x y d produces =>
      have hnew := produces.bound
      have hold := produces.fresh
      simp only [hA, hold] at hnew
      cases hnew
  have hsome : s'.tmpDestAddr.isSome := by
    obtain ⟨-, dest, b', -, -, -, -, -, rfl⟩ := bindStep_element hwf hstep
    rfl
  refine ⟨s', hstep, hsome, ?_, h.noShift_snoc hshift, ?_, h.injective, hA ▸ h.logic, h.ne_load, ?_, ?_, ?_,
    fun hs => hF ▸ h.loaded (scheduled_of_snoc hs), ?_, hA ▸ h.size⟩
  · rw [Reaches, run_snoc h.reaches, hstep]
  · refine h.findInANM_eq rfl rfl (fun _ _ => rfl) fun reg => ?_
    rw [LiMBinder.findInANM, hmap]
    exact hn.arrayNamesMap_reuse hfeeding k reg
  · rw [hlast]
    exact h.dest
  · rw [hlast, hA]
    exact h.unused
  · rw [h.history_snoc hstep]
    intro e op a b he
    obtain ⟨hf, t, ht, hp⟩ := h.produced e op a b he
    refine ⟨?_, t, List.mem_append_left _ ht, hp⟩
    rw [LiMBinder.feedingType, hA]
    exact hf
  · refine h.sound_snoc hstep ⟨?_, ?_, ?_⟩
    · simp only [LiMBinder.Resolved, hcommon']
      exact hfeeding
    · exact fun hnone => absurd hnone (hcommon' ▸ Option.some_ne_none (name d))
    · intro e he
      obtain rfl : name d = e := Option.some.inj (hcommon'.symm.trans he.1)
      rcases hmade with hmade | ⟨hcomm, hmade⟩
      · obtain ⟨-, t, ht, hp⟩ := h.produced d _ _ _ hmade
        exact ⟨t, ht, .inl hp⟩
      · obtain ⟨-, t, ht, hp⟩ := h.produced d _ _ _ hmade
        exact ⟨t, ht, .inr ⟨hcomm, hp⟩⟩

end Placement.Describes

/-- The mapping of an element on two slots, at the site where the placement puts its logic. -/
structure Placement.Maps (P : Placement) (name : ℕ → Name) (s s' : BinderState) (operation : Operation)
    (specifications : List String) (x y : ℕ) (dest : Name) (logic : ℕ → Option Operation) (b : LiMBinder)
    (w : Way) (row other : Name) (base : LiMRow) (t : ℤ) : Prop where
  same : b.MemArray = s.binder.MemArray
  fresh : s.binder.MemArray.findRow dest = none
  realizes : Realizes b operation specifications (name x) (name y) dest w row other base t
    s'.binder.MemArray s'.binder.FSMLim
  site : s.binder.site true operation (name x) (name y) = some (w, row, other)
  way : w = .convert ∧ (∃ d, d < P.size ∧ row = name d ∧ logic = Function.update P.logic d (some operation)) ∨
    w = .copy ∧ logic = P.logic
  last : s'.binder.lastDestMap = (s.binder.lastDestMap.insertIfNew (name x) dest).insertIfNew (name y) dest

namespace Placement.Maps

variable {logic : ℕ → Option Operation} {b : LiMBinder} {w : Way} {row other : Name} {base : LiMRow} {t : ℤ}
  (hm : P.Maps name s s' operation specifications x y dest logic b w row other base t)
  (h : P.Describes name par optTarget actions s)
include hm

theorem not_dropsOperand : ¬ s.binder.DropsOperand operation (name x) (name y) := by
  rintro ⟨r, z, row', hmux, -⟩
  rw [hm.site, Option.some.injEq, Prod.mk.injEq] at hmux
  rcases hm.way with ⟨hconvert, -⟩ | ⟨hcopy, -⟩
  · cases hconvert.symm.trans hmux.1
  · cases hcopy.symm.trans hmux.1

/-- No row gets a third connection. -/
theorem atMostTwo (hl : b.LoadRows) (hsize : s.binder.MemArray.AtMostTwo) : s'.binder.MemArray.AtMostTwo := by
  intro n new hnew
  rw [hm.realizes.rows] at hnew
  split at hnew
  · obtain rfl := Option.some.inj hnew
    exact Nat.le_succ 1
  split at hnew
  · obtain rfl := Option.some.inj hnew
    cases hm.realizes.site with
    | @convert _ _ old operands found convertible =>
      have hlen := (hl row old found (LiMRow.rowType_of_convertible convertible)).2
      have hlen : (old.withLogic operation specifications).inputConnections.length = 1 := hlen
      rw [LiMRow.connect_of_length_one hlen, List.length_append, hlen]
      exact Nat.le_refl 2
    | mux =>
      rcases hm.way with ⟨hconvert, -⟩ | ⟨hcopy, -⟩
      · cases hconvert
      · cases hcopy
    | copy => exact Nat.le_refl 2
  · rw [hm.same] at hnew
    exact hsize n new hnew

include h

/-- The rows have the logic of their slots. -/
theorem logic_eq (hl : ∀ n op, logic n = some op → n < P.size) {d : ℕ} (hd : d < P.size + 1) :
    ∃ row, s'.binder.MemArray.findRow (Function.update name P.size dest d) = some row ∧
      row.rowType = (logic d).getD .load := by
  rcases Nat.lt_succ_iff_lt_or_eq.mp hd with hd | rfl
  · obtain ⟨old, hold, htype⟩ := h.logic d hd
    rw [Function.update_of_ne (Nat.ne_of_lt hd), hm.realizes.rows, if_neg (h.name_ne hm.fresh hd)]
    by_cases hrow : name d = row
    · rw [if_pos hrow]
      refine ⟨_, rfl, ?_⟩
      rw [LiMRow.connect_rowType, hm.realizes.site.rowType]
      rcases hm.way with ⟨-, e, he, hrowe, rfl⟩ | ⟨rfl, -⟩
      · obtain rfl := h.injective d hd e he (hrow.trans hrowe)
        rw [Function.update_self, Option.getD_some]
      · -- the copy row is new
        have hzero := hm.realizes.site.row_eq
        rw [if_pos rfl] at hzero
        have hfresh := hm.realizes.freshZero
        rw [hm.same, ← hzero, ← hrow, hold] at hfresh
        cases hfresh
    · rw [if_neg hrow, hm.same]
      refine ⟨old, hold, ?_⟩
      rcases hm.way with ⟨-, e, he, hrowe, rfl⟩ | ⟨-, rfl⟩
      · have hne : d ≠ e := fun heq => hrow (heq ▸ hrowe.symm)
        rw [Function.update_of_ne hne, htype]
      · exact htype
  · rw [Function.update_self, hm.realizes.findRow_dest]
    refine ⟨_, rfl, ?_⟩
    cases hlogic : logic P.size with
    | none => rfl
    | some op => exact absurd (hl _ op hlogic) (Nat.lt_irrefl _)

theorem ne_load (hop : operation ≠ .load) (d : ℕ) (op : Operation) (hd : logic d = some op) : op ≠ .load := by
  rcases hm.way with ⟨-, e, -, -, rfl⟩ | ⟨-, rfl⟩
  · rw [Function.update_apply] at hd
    split at hd
    · exact Option.some.inj hd ▸ hop
    · exact h.ne_load d op hd
  · exact h.ne_load d op hd

/-- The result is the first one of the operands that had none. -/
theorem dest_eq (hx : x < P.size) (hy : y < P.size) {d : ℕ} (hd : d < P.size + 1) :
    s'.binder.lastDestMap[Function.update name P.size dest d]? =
      (if d = x ∨ d = y then some ((P.dest d).getD P.size) else P.dest d).map
        (Function.update name P.size dest) := by
  rw [hm.last]
  rcases Nat.lt_succ_iff_lt_or_eq.mp hd with hd | rfl
  · have hnx : name x = name d ↔ d = x := ⟨fun heq => (h.injective x hx d hd heq).symm, fun heq => heq ▸ rfl⟩
    have hny : name y = name d ↔ d = y := ⟨fun heq => (h.injective y hy d hd heq).symm, fun heq => heq ▸ rfl⟩
    rw [Function.update_of_ne (Nat.ne_of_lt hd), LiMBinder.getElem?_insertIfNew_nat,
      LiMBinder.getElem?_insertIfNew_nat, h.dest d hd]
    simp only [hnx, hny]
    cases hold : P.dest d with
    | none => by_cases h1 : d = x <;> by_cases h2 : d = y <;> simp [h1, h2]
    | some e =>
      have he : Function.update name P.size dest e = name e :=
        Function.update_of_ne (Nat.ne_of_lt (P.dest_lt d e hold).2) _ _
      by_cases h1 : d = x <;> by_cases h2 : d = y <;> simp [h1, h2, he]
  · have hnone : P.dest P.size = none := by
      cases hold : P.dest P.size with
      | none => rfl
      | some e => exact absurd (P.dest_lt _ e hold).1 (Nat.lt_irrefl _)
    have hne : ¬ (P.size = x ∨ P.size = y) := by omega
    rw [Function.update_self, LiMBinder.getElem?_insertIfNew_nat, LiMBinder.getElem?_insertIfNew_nat,
      h.unused dest hm.fresh, if_neg fun hc => h.name_ne hm.fresh hy hc.1, if_neg fun hc => h.name_ne hm.fresh hx hc.1,
      if_neg hne, hnone, Option.map_none]

theorem unused (hx : x < P.size) (hy : y < P.size) (he : s.binder.Extends s'.binder) {n : Name}
    (hnone : s'.binder.MemArray.findRow n = none) : s'.binder.lastDestMap[n]? = none := by
  have hold := he.findRow_none hnone
  rw [hm.last, LiMBinder.getElem?_insertIfNew_nat, LiMBinder.getElem?_insertIfNew_nat, h.unused n hold,
    if_neg fun hc => h.name_ne hold hy hc.1, if_neg fun hc => h.name_ne hold hx hc.1]

end Placement.Maps

/-- The operation of a step that produces a row is no load. -/
theorem Produces.ne_load {t : Transition BinderState BindingAction} (h : Produces t operation x y dest)
    (ht : t ∈ history par optTarget actions) : operation ≠ .load := by
  obtain ⟨before, -, hreach, hone⟩ := exists_run_of_mem_transitions ht
  obtain ⟨_, _, _, hact⟩ := h.act
  rw [hact] at hone
  exact (bindStep_element (wellFormed_of_reaches hreach) hone).1

/-- **An element that is mapped.** -/
theorem Placement.Describes.element_result {logic : ℕ → Option Operation}
    (h : P.Describes name par optTarget actions s) (hx : x < P.size) (hy : y < P.size)
    (hdest : s.tmpDestAddr = some dest)
    (hbound : operation.isBound = true) (hshift : operation.isShift = false)
    (hcommon : P.commonDest x y = none) (hl : P.logicAt operation x y = some logic)
    (specifications : List String) (junk : Indeterminate) :
    ∃ s', bindStep s (.element operation specifications k (name x) (name y) junk) = some s' ∧
      s'.tmpDestAddr.isSome ∧
      (P.result operation k x y logic hx hy hl).Describes (Function.update name P.size dest) par optTarget
        (actions ++ [.element operation specifications k (name x) (name y) junk]) s' := by
  have hwf := wellFormed_of_reaches h.reaches
  obtain ⟨hn, hle, -⟩ := hwf.named_of_reserved hdest
  have fresh : s.binder.MemArray.findRow dest = none := hn.fresh (Nat.le_refl _)
  have freshZero : s.binder.MemArray.findRow s.binder.zeroAddr = none := hn.fresh (by lia)
  have hcommon' : s.binder.commonDest (name x) (name y) = none := by
    rw [h.commonDest_eq hx hy, hcommon, Option.map_none]
  have htimes := h.nextTime_isSome hx hy
  obtain ⟨b', hmap⟩ := Option.isSome_iff_exists.mp
    (LiMBinder.mapOperation_isSome (b := s.binder.addNewItem k dest) operation specifications dest freshZero
      (h.row_isSome hx) (h.row_isSome hy) (LiMBinder.nextTime_isSome_iff.mpr htimes))
  obtain ⟨w, row, other, base, t, hsite, hreal, hrest⟩ :=
    LiMBinder.mapOperation_realizes (b := s.binder.addNewItem k dest) fresh freshZero
      (show dest ≠ s.binder.zeroAddr by lia) hmap
  -- the logic goes where the placement says
  obtain ⟨w', row', other', hsite', hway⟩ := h.site_eq hx hy hl
  obtain ⟨rfl, rfl, rfl⟩ : w = w' ∧ row = row' ∧ other = other' := by
    have heq := Option.some.inj (hsite.symm.trans hsite')
    rwa [Prod.mk.injEq, Prod.mk.injEq] at heq
  have hstep : bindStep s (.element operation specifications k (name x) (name y) junk) =
      some ⟨b'.getNewName.2, some b'.zeroAddr⟩ := by
    have hcommon' : (s.binder.addNewItem k dest).commonDest (name x) (name y) = none := hcommon'
    simp only [bindStep, if_pos hbound, BinderState.bindElement, hdest, Option.bind_eq_bind, Option.bind_some,
      LiMBinder.performBinding, hcommon', hshift]
    rw [if_neg Bool.false_ne_true, hmap]
    rfl
  obtain ⟨-, he⟩ := wellFormed_bindStep hwf hstep
  have hm : P.Maps name s ⟨b'.getNewName.2, some b'.zeroAddr⟩ operation specifications x y dest logic
      (s.binder.addNewItem k dest) w row other base t :=
    ⟨rfl, fresh, hreal, hsite', hway, congrArg LiMBinder.lastDestMap hrest⟩
  have hname : ∀ d < P.size, Function.update name P.size dest d = name d := fun d hd =>
    Function.update_of_ne (Nat.ne_of_lt hd) _ _
  refine ⟨_, hstep, rfl, ?_, h.noShift_snoc hshift, ?_, h.injective_update fresh,
    fun d hd => hm.logic_eq h (fun n op => Placement.logicAt_lt hx hy hl) hd,
    hm.ne_load h (Operation.ne_load_of_isBound hbound), fun d hd => hm.dest_eq h hx hy hd,
    fun n hn => hm.unused h hx hy he hn, ?_, ?_, ?_, hm.atMostTwo hwf.loads h.size⟩
  · rw [Reaches, run_snoc h.reaches, hstep]
  · refine h.findInANM_eq rfl (Function.update_self _ _ _) hname fun reg => ?_
    have hnames : b'.arrayNamesMap = (s.binder.addNewItem k dest).arrayNamesMap := by rw [hrest]
    have hfind := s.binder.findInANM_addNewItem k reg dest
    rw [LiMBinder.findInANM, ← hnames] at hfind
    exact hfind
  · intro d op a b hd
    have hd : Function.update P.made P.size (some (operation, x, y)) d = some (op, a, b) := hd
    rw [h.history_snoc hstep]
    by_cases hsize : d = P.size
    · subst hsize
      rw [Function.update_self, Option.some.injEq, Prod.mk.injEq, Prod.mk.injEq] at hd
      obtain ⟨rfl, rfl, rfl⟩ := hd
      rw [Function.update_self, hname x hx, hname y hy]
      refine ⟨hreal.feedingType rfl, _, List.mem_append_right _ (List.mem_singleton_self _),
        ⟨specifications, k, junk, rfl⟩, hdest, fresh, ?_⟩
      exact Option.isSome_of_eq_some hreal.findRow_dest
    · rw [Function.update_of_ne hsize] at hd
      obtain ⟨hlt, ha, hb⟩ := P.made_lt d op a b hd
      obtain ⟨hf, t, ht, hp⟩ := h.produced d op a b hd
      rw [hname d hlt, hname a ha, hname b hb]
      exact ⟨he.feedingType (hp.ne_load ht) hf, t, List.mem_append_left _ ht, hp⟩
  · intro hs d hd hmade
    have hmade : Function.update P.made P.size (some (operation, x, y)) d = none := hmade
    have hne : d ≠ P.size := by
      rintro rfl
      rw [Function.update_self] at hmade
      cases hmade
    have hd : d < P.size := Nat.lt_of_le_of_ne (Nat.lt_succ_iff.mp hd) hne
    rw [Function.update_of_ne hne] at hmade
    rw [hname d hd]
    exact he.times _ _ (h.loaded (Describes.scheduled_of_snoc hs) d hd hmade)
  · refine h.sound_snoc hstep ⟨?_, fun _ => hm.not_dropsOperand, fun d hd => ?_⟩
    · simp only [LiMBinder.Resolved, hcommon']
      exact htimes
    · cases hcommon'.symm.trans hd.1

/-- **An element that can be placed is bound**, to the slot of the placement. -/
theorem Placement.Describes.element (h : P.Describes name par optTarget actions s) (hx : x < P.size)
    (hy : y < P.size) (hdest : s.tmpDestAddr.isSome)
    (hbound : operation.isBound = true) (hshift : operation.isShift = false)
    (hP : P.element operation k x y = some P') (specifications : List String) (junk : Indeterminate) :
    ∃ s' name', bindStep s (.element operation specifications k (name x) (name y) junk) = some s' ∧
      s'.tmpDestAddr.isSome ∧ (∀ d < P.size, name' d = name d) ∧
      P'.Describes name' par optTarget
        (actions ++ [.element operation specifications k (name x) (name y) junk]) s' := by
  obtain ⟨dest, hdest⟩ := Option.isSome_iff_exists.mp hdest
  rcases Placement.element_cases hP with ⟨d, hd, hcommon, hmade, rfl⟩ | ⟨logic, hx', hy', hl, hcommon, rfl⟩
  · obtain ⟨s', hstep, hsome, h'⟩ := h.element_reuse (k := k) hx hy hdest hbound hshift hd hcommon hmade
      specifications junk
    exact ⟨s', name, hstep, hsome, fun _ _ => rfl, h'⟩
  · obtain ⟨s', hstep, hsome, h'⟩ := h.element_result (k := k) hx hy hdest hbound hshift hcommon hl
      specifications junk
    exact ⟨s', _, hstep, hsome, fun e he => Function.update_of_ne (Nat.ne_of_lt he) _ _, h'⟩

namespace Placement.Describes

/-- A step that changes neither the array nor the names recorded. -/
theorem of_same {a : BindingAction} (h : P.Describes name par optTarget actions s) (ha : a.noShift)
    (hstep : bindStep s a = some s') (hA : s'.binder.MemArray = s.binder.MemArray)
    (hF : s'.binder.FSMLim = s.binder.FSMLim) (hd : s'.binder.lastDestMap = s.binder.lastDestMap)
    (hn : s'.binder.arrayNamesMap = s.binder.arrayNamesMap)
    (hsound : Transition.BoundSoundly (history par optTarget actions) ⟨s, a, s'⟩) :
    P.Describes name par optTarget (actions ++ [a]) s' := by
  refine ⟨by rw [Reaches, run_snoc h.reaches, hstep], h.noShift_snoc ha, fun k => ?_, h.injective, hA ▸ h.logic,
    h.ne_load, hd ▸ h.dest, hA ▸ hd ▸ h.unused, ?_, fun hs => hF ▸ h.loaded (scheduled_of_snoc hs),
    h.sound_snoc hstep hsound, hA ▸ h.size⟩
  · rw [LiMBinder.findInANM, hn]
    exact h.rows k
  · rw [h.history_snoc hstep]
    intro d op x y hd
    obtain ⟨hf, t, ht, hp⟩ := h.produced d op x y hd
    refine ⟨?_, t, List.mem_append_left _ ht, hp⟩
    rw [LiMBinder.feedingType, hA]
    exact hf

/-- **A row that is loaded.** -/
theorem bindLoad {b : LiMBinder} (h : P.Describes name par optTarget actions ⟨b, none⟩) (k : Reg) (ti : ℤ) :
    (P.load k).Describes (Function.update name P.size b.zeroAddr) par optTarget (actions ++ [.load k ti])
      ⟨b.bindLoad k ti, none⟩ := by
  have hb := (wellFormed_of_reaches h.reaches).binder rfl
  have hrows := LiMBinder.findRow_bindLoad hb.named k ti
  have hstep : bindStep ⟨b, none⟩ (.load k ti) = some ⟨b.bindLoad k ti, none⟩ := rfl
  obtain ⟨-, he⟩ := wellFormed_bindStep (wellFormed_of_reaches h.reaches) hstep
  have hname : ∀ d < P.size, Function.update name P.size b.zeroAddr d = name d := fun d hd =>
    Function.update_of_ne (Nat.ne_of_lt hd) _ _
  have hself : Function.update name P.size b.zeroAddr P.size = b.zeroAddr := Function.update_self _ _ _
  have hnone : ∀ {α : Type} (f : ℕ → Option α), (∀ n v, f n = some v → n < P.size) → f P.size = none := by
    intro α f hf
    cases hv : f P.size with
    | none => rfl
    | some v => exact absurd (hf _ v hv) (Nat.lt_irrefl _)
  refine ⟨by rw [Reaches, run_snoc h.reaches, hstep], h.noShift_snoc trivial, ?_,
    h.injective_update hb.freshZero, ?_, h.ne_load, ?_, ?_, ?_, ?_, h.sound_snoc hstep trivial, ?_⟩
  · exact h.findInANM_eq rfl hself hname fun reg => b.findInANM_addNewItem k reg b.zeroAddr
  · intro d hd
    change d < P.size + 1 at hd
    rcases Nat.lt_succ_iff_lt_or_eq.mp hd with hd | rfl
    · obtain ⟨row, hrow, htype⟩ := h.logic d hd
      refine ⟨row, ?_, htype⟩
      rw [hname d hd, hrows, if_neg (h.name_ne hb.freshZero hd)]
      exact hrow
    · refine ⟨_, by rw [hself, hrows, if_pos rfl], ?_⟩
      show Operation.load = (P.logic P.size).getD .load
      rw [hnone P.logic fun n v => P.logic_lt n v]
      rfl
  · intro d hd
    change d < P.size + 1 at hd
    show b.lastDestMap[Function.update name P.size b.zeroAddr d]? =
      (P.dest d).map (Function.update name P.size b.zeroAddr)
    rcases Nat.lt_succ_iff_lt_or_eq.mp hd with hd | rfl
    · rw [hname d hd]
      refine (h.dest d hd).trans ?_
      cases hold : P.dest d with
      | none => rfl
      | some e => rw [Option.map_some, Option.map_some, hname e (P.dest_lt d e hold).2]
    · rw [hself, hnone P.dest fun n v hv => (P.dest_lt n v hv).1]
      exact h.unused _ hb.freshZero
  · exact fun n hn => h.unused n (he.findRow_none hn)
  · rw [h.history_snoc hstep]
    intro d op x y hd
    obtain ⟨hlt, hx, hy⟩ := P.made_lt d op x y hd
    obtain ⟨hf, t, ht, hp⟩ := h.produced d op x y hd
    rw [hname d hlt, hname x hx, hname y hy]
    exact ⟨he.feedingType (hp.ne_load ht) hf, t, List.mem_append_left _ ht, hp⟩
  · intro hs d hd hmade
    rcases Nat.lt_succ_iff_lt_or_eq.mp hd with hd | rfl
    · rw [hname d hd]
      exact he.times _ _ (h.loaded (scheduled_of_snoc hs) d hd hmade)
    · have hti : ti = 0 := hs _ (List.mem_append_right _ (List.mem_singleton_self _))
      show (b.bindLoad k ti).FSMLim.getTime (Function.update name P.size b.zeroAddr P.size) = some 0
      rw [hself, LiMBinder.getTime_bindLoad hb h.regular, if_pos rfl, hti]
  · intro n row hrow
    have hrow := (hrows n).symm.trans hrow
    split at hrow
    · obtain rfl := Option.some.inj hrow
      exact Nat.le_succ 1
    · exact h.size n row hrow

end Placement.Describes

/-! ### The entries -/

/-- The accesses to an array select rows by their position. -/
def Source.Positional (src : Source) : Prop :=
  src.type = .array → ∀ (f : ℕ → ℕ) rows, src.accessed (rows.map f) = (src.accessed rows).map f

/-- The accesses of the operations of a table select rows by their position. -/
def BinderInput.Positional (I : BinderInput) (T : InstructionTable) : Prop :=
  ∀ k d, T.find k = some d → d.operation ≠ .load → (I.source1 k d).Positional ∧ (I.source2 k d).Positional

namespace Source

variable {src : Source} (hsrc : src.Positional)
include hsrc

theorem addrList_map (f : ℕ → ℕ) (rows : List ℕ) : src.addrList (rows.map f) = (src.addrList rows).map f := by
  unfold addrList
  split
  · next harray => exact hsrc harray f rows
  · rfl

theorem size_map (f : ℕ → ℕ) (rows : List ℕ) : src.size (rows.map f) = src.size rows := by
  unfold size
  rw [addrList_map hsrc, List.length_map]

theorem row_map (f : ℕ → ℕ) (rows : List ℕ) (size i : ℕ) :
    src.row (rows.map f) size i = (src.row rows size i).map f := by
  rw [row, addrList_map hsrc, List.getElem?_map]
  rfl

/-- What is selected by its position is one of the rows. -/
theorem mem_of_row {rows : List ℕ} {size i n : ℕ} (h : src.row rows size i = some n) : n ∈ rows := by
  have hmem : n ∈ src.addrList rows := List.mem_of_getElem? h
  cases hrows : rows with
  | nil =>
    -- every function selects the same of no rows
    have hall : ∀ f : ℕ → ℕ, src.addrList [] = (src.addrList []).map f := fun f => addrList_map hsrc f []
    rw [hrows, hall fun _ => 0] at hmem
    obtain ⟨m, hm, -⟩ := List.mem_map.mp hmem
    rw [hall fun _ => m + 1] at hm
    obtain ⟨-, -, hm⟩ := List.mem_map.mp hm
    omega
  | cons head tail =>
    have hfixed : rows.map (fun n => if n ∈ rows then n else head) = rows :=
      (List.map_congr_left fun n hn => if_pos hn).trans (List.map_id _)
    rw [← hfixed, addrList_map hsrc] at hmem
    obtain ⟨m, -, rfl⟩ := List.mem_map.mp hmem
    rw [← hrows]
    split
    · assumption
    · rw [hrows]
      exact List.mem_cons_self

end Source

namespace Placement.Describes

variable {I : BinderInput} {T : InstructionTable} {d : InstructionData} {row1 row2 : ℕ → Option ℕ} {is : List ℕ}
  {b : LiMBinder}

/-- **The elements of an operation** that can be placed are bound. -/
theorem elements (hbound : operation.isBound = true) (hshift : operation.isShift = false)
    (specifications : List String) (junk : ℕ → Indeterminate) (h : P.Describes name par optTarget actions s)
    (hdest : s.tmpDestAddr.isSome) (hrow1 : ∀ i x, row1 i = some x → x < P.size)
    (hrow2 : ∀ i x, row2 i = some x → x < P.size) (hP : run (elementAt operation k row1 row2) P is = some P') :
    ∃ s' name' more, is.foldlM (fun s i => do
        let src1 ← (row1 i).map name
        let src2 ← (row2 i).map name
        s.bindElement operation specifications k src1 src2 (junk i)) s = some s' ∧
      s'.tmpDestAddr.isSome ∧ (∀ e < P.size, name' e = name e) ∧
      (∀ a ∈ more, ∃ src1 src2 j, a = .element operation specifications k src1 src2 j) ∧
      P'.Describes name' par optTarget (actions ++ more) s' := by
  induction is generalizing P name actions s with
  | nil =>
    obtain rfl : P = P' := Option.some.inj hP
    exact ⟨s, name, [], rfl, hdest, fun _ _ => rfl, by simp, by rwa [List.append_nil]⟩
  | cons i is ih =>
    rw [run_cons] at hP
    obtain ⟨P₁, hstep, hP⟩ := Option.bind_eq_some_iff.mp hP
    obtain ⟨x, hx, hstep⟩ := Option.bind_eq_some_iff.mp hstep
    obtain ⟨y, hy, hstep⟩ := Option.bind_eq_some_iff.mp hstep
    obtain ⟨s₁, name₁, hs₁, hdest₁, hname₁, h₁⟩ :=
      h.element (hrow1 i x hx) (hrow2 i y hy) hdest hbound hshift hstep specifications (junk i)
    have hle := (extends_element hstep).1.size_le
    obtain ⟨s', name', more, hs', hdest', hname', hmore, h'⟩ := ih h₁ hdest₁
      (fun i x hx => (hrow1 i x hx).trans_le hle) (fun i x hx => (hrow2 i x hx).trans_le hle) hP
    rw [bindStep, if_pos hbound] at hs₁
    have hmap : ∀ {row : ℕ → Option ℕ}, (∀ i x, row i = some x → x < P.size) → ∀ j,
        (row j).map name₁ = (row j).map name := by
      intro row hrow j
      cases hj : row j with
      | none => rfl
      | some z => rw [Option.map_some, Option.map_some, hname₁ z (hrow j z hj)]
    simp only [hmap hrow1, hmap hrow2] at hs'
    refine ⟨s', name', _ :: more, ?_, hdest', fun e he => ?_, ?_, by rwa [List.append_cons]⟩
    · rw [List.foldlM_cons, hx, hy]
      simp only [Option.map_some, Option.bind_eq_bind, Option.bind_some, hs₁]
      exact hs'
    · rw [hname' e (he.trans_le hle), hname₁ e he]
    · intro a ha
      rcases List.mem_cons.mp ha with rfl | ha
      · exact ⟨_, _, _, rfl⟩
      · exact hmore a ha

/-- The rows of a load. -/
theorem loads (h : P.Describes name par optTarget actions ⟨b, none⟩) (k : Reg) (ti : ℤ) (numIter : ℕ) :
    ∃ name' more, (∀ e < P.size, name' e = name e) ∧ (∀ a ∈ more, a = .load k ti) ∧
      (P.loads k numIter).Describes name' par optTarget (actions ++ more)
        ⟨b.handleLoadOperationBindingProcess k ti numIter, none⟩ := by
  unfold Placement.loads LiMBinder.handleLoadOperationBindingProcess
  induction List.range numIter generalizing P name actions b with
  | nil => exact ⟨name, [], fun _ _ => rfl, by simp, by rwa [List.append_nil]⟩
  | cons i is ih =>
    obtain ⟨name', more, hname, hmore, h'⟩ := ih (h.bindLoad k ti)
    refine ⟨name', .load k ti :: more, fun e he => ?_, ?_, ?_⟩
    · rw [hname e (he.trans_le (Nat.le_succ _)), Function.update_of_ne (Nat.ne_of_lt he)]
    · intro a ha
      rcases List.mem_cons.mp ha with rfl | ha
      · rfl
      · exact hmore a ha
    · rw [List.append_assoc] at h'
      exact h'

/-- The slots of a source are its rows. -/
theorem findInANM_of_ne_nil (h : P.Describes name par optTarget actions s) {reg : Reg}
    (hne : P.slots reg ≠ []) : s.binder.findInANM reg = some ((P.slots reg).map name) := by
  rw [h.rows, if_neg hne]

/-- **A fully parallel operation** that can be placed is bound. -/
theorem operationEntry (hacc1 : (I.source1 k d).Positional) (hacc2 : (I.source2 k d).Positional)
    (h : P.Describes name par optTarget actions ⟨b, none⟩)
    (hbound : d.operation.isBound = true) (hshift : d.operation.isShift = false)
    (hP : P.operationEntry I k d = some P') :
    ∃ b' name' more, b.handleFPOperationBindingProcess d.operation d.specifications k (I.source1 k d)
        (I.source2 k d) (I.junk k) = some b' ∧ (∀ e < P.size, name' e = name e) ∧
      (∀ a ∈ more, a.OfEntry k d) ∧ P'.Describes name' par optTarget (actions ++ more) ⟨b', none⟩ := by
  unfold Placement.operationEntry at hP
  split at hP
  · cases hP
  next hne =>
  rw [not_or] at hne
  obtain ⟨size1, hsize1, hP⟩ := Option.bind_eq_some_iff.mp hP
  obtain ⟨size2, hsize2, hP⟩ := Option.bind_eq_some_iff.mp hP
  -- the first name is reserved
  have hentered := h.of_same (a := .enter ((I.source1 k d).constants + (I.source2 k d).constants)) trivial rfl
    rfl rfl rfl rfl trivial
  obtain ⟨s', name', more, hrun, hsome, hname, hmore, h'⟩ := hentered.elements hbound hshift d.specifications
    (I.junk k) rfl (fun i x hx => P.slots_lt _ x (Source.mem_of_row hacc1 hx))
    (fun i x hx => P.slots_lt _ x (Source.mem_of_row hacc2 hx)) hP
  have hbind : bindStep s' .leave = some ⟨s'.binder, none⟩ := by rw [bindStep, if_pos hsome]
  have hleave := h'.of_same (a := .leave) trivial hbind rfl rfl rfl rfl trivial
  refine ⟨s'.binder, name', .enter ((I.source1 k d).constants + (I.source2 k d).constants) :: (more ++ [.leave]),
    ?_, hname, ?_, ?_⟩
  · have hfind1 : b.getNewName.2.findInANM (I.source1 k d).reg = some ((P.slots d.sourceReg1).map name) :=
      h.findInANM_of_ne_nil hne.1
    have hfind2 : b.getNewName.2.findInANM (I.source2 k d).reg = some ((P.slots d.sourceReg2).map name) :=
      h.findInANM_of_ne_nil hne.2
    simp only [LiMBinder.handleFPOperationBindingProcess, hfind1, hfind2, Option.bind_eq_bind, Option.bind_some,
      Source.size_map hacc1, Source.size_map hacc2, hsize1, hsize2, Source.row_map hacc1, Source.row_map hacc2]
    simp only [Option.bind_eq_bind] at hrun
    exact congrArg (·.bind fun s : BinderState => some s.binder) hrun
  · intro a ha
    simp only [List.mem_cons, List.mem_append, List.not_mem_nil, or_false] at ha
    rcases ha with rfl | ha | rfl
    · trivial
    · obtain ⟨src1, src2, j, rfl⟩ := hmore a ha
      exact ⟨rfl, rfl, rfl⟩
    · trivial
  · rw [List.append_cons, ← List.append_assoc]
    exact hleave

/-- **An entry** that can be placed is bound. -/
theorem entry (hacc : d.operation ≠ .load → (I.source1 k d).Positional ∧ (I.source2 k d).Positional)
    {p : BindingPhase} (h : P.Describes name par optTarget actions ⟨p.binder, none⟩)
    (hP : P.entry I k d = some P') :
    ∃ p' name' more, I.bindEntry p k d = some p' ∧ (∀ e < P.size, name' e = name e) ∧
      (∀ a ∈ more, a.OfEntry k d) ∧ P'.Describes name' par optTarget (actions ++ more) ⟨p'.binder, none⟩ := by
  unfold Placement.entry at hP
  split at hP
  · next hload =>
    obtain ⟨numIter, hiter, rfl⟩ := Option.map_eq_some_iff.mp hP
    obtain ⟨name', more, hname, hmore, h'⟩ := h.loads k d.ti numIter.toNat
    refine ⟨{ p with binder := _ }, name', more, ?_, hname, fun a ha => ?_, h'⟩
    · rw [BinderInput.bindEntry, if_pos hload, hiter]
      rfl
    · obtain rfl := hmore a ha
      exact ⟨hload, rfl, rfl⟩
  next hload =>
  split at hP
  · next hop =>
    obtain ⟨hbound, hshift, haccumulation⟩ := hop
    have hlim : LimOperations d.operation ≠ none := by
      rw [Operation.isBound, Bool.and_eq_true] at hbound
      exact Option.isSome_iff_ne_none.mp hbound.2
    have hne : P.slots d.sourceReg1 ≠ [] := by
      intro hnil
      rw [Placement.operationEntry, if_pos (.inl hnil)] at hP
      cases hP
    obtain ⟨b', name', more, hb', hname, hmore, h'⟩ := h.operationEntry (k := k) (hacc hload).1 (hacc hload).2 hbound hshift hP
    refine ⟨⟨b', (I.source1 k d).addrList ((P.slots d.sourceReg1).map name)⟩, name', more, ?_, hname, hmore, h'⟩
    have hfind : p.binder.findInANM d.sourceReg1 = some ((P.slots d.sourceReg1).map name) :=
      h.findInANM_of_ne_nil hne
    rw [BinderInput.bindEntry, if_neg hload, if_neg hlim, haccumulation, if_neg Bool.false_ne_true,
      BinderInput.handleFPOperationBindingProcess, hfind, Option.bind_eq_bind, Option.bind_some, hb']
    rfl
  · cases hP

/-- The binder before the first entry is described by the placement without slots. -/
theorem empty (name : ℕ → Name) (par : ℤ) (optTarget : String) :
    Placement.empty.Describes name par optTarget [] (.init par optTarget) where
  reaches := rfl
  noShift := by simp
  rows k := by simp [BinderState.init, LiMBinder.init, LiMBinder.findInANM, Placement.empty]
  injective d hd := absurd hd (Nat.not_lt_zero d)
  logic d hd := absurd hd (Nat.not_lt_zero d)
  ne_load d op h := by cases h
  dest d hd := absurd hd (Nat.not_lt_zero d)
  unused n _ := by simp [BinderState.init, LiMBinder.init]
  produced d op x y h := by cases h
  loaded _ d hd := absurd hd (Nat.not_lt_zero d)
  sound := by simp [transitions]
  size n row hrow := by
    have hnone : LiMArray.empty.findRow n = none := rfl
    cases hnone.symm.trans hrow

end Placement.Describes

variable {I : BinderInput} {T : InstructionTable} {P : Placement} {entries : List (Reg × Operation)}

/-- **The loop over a table that can be placed ends**, in a run of the entries that its placement
describes. -/
theorem Placement.describes_run (hI : I.Positional T) (h : run (Placement.step I T) .empty entries = some P) :
    ∃ p name actions, run (I.step T) I.start entries = some p ∧
      (∀ a ∈ actions, ∃ e ∈ entries, ∃ d, T.find e.1 = some d ∧ a.OfEntry e.1 d) ∧
      P.Describes name I.par I.optTarget actions ⟨p.binder, none⟩ := by
  refine run_induction (P := fun entries P => ∃ p name actions, run (I.step T) I.start entries = some p ∧
      (∀ a ∈ actions, ∃ e ∈ entries, ∃ d, T.find e.1 = some d ∧ a.OfEntry e.1 d) ∧
      P.Describes name I.par I.optTarget actions ⟨p.binder, none⟩) ?_ ?_ h
  · exact ⟨I.start, id, [], rfl, by simp, .empty id I.par I.optTarget⟩
  · rintro entries P e P' - ⟨p, name, actions, hrun, hall, hdescribes⟩ hstep
    obtain ⟨d, hd, hentry⟩ := Option.bind_eq_some_iff.mp hstep
    obtain ⟨p', name', more, hp', -, hmore, h'⟩ := hdescribes.entry (hI _ _ hd) hentry
    refine ⟨p', name', actions ++ more, ?_, fun a ha => ?_, h'⟩
    · rw [run_snoc hrun, BinderInput.step, hd, Option.bind_some, hp']
    · rcases List.mem_append.mp ha with ha | ha
      · obtain ⟨e', he', d', hd', hof⟩ := hall a ha
        exact ⟨e', List.mem_append_left _ he', d', hd', hof⟩
      · exact ⟨e, List.mem_append_right _ (List.mem_singleton_self _), d, hd, hmore a ha⟩

end Octantis