import Std.Data.String.ToNat
import Mathlib.Data.Int.ConditionallyCompleteOrder
import Octantis.Lib.Booking
import Octantis.SchedulerGraph.Edges
import Octantis.SchedulerGraph.ResourceScheduling

/-!
# The rows of the scheduling

What stands on the rows when the scheduling has come to an end: who is on a row is read from
the scoreboard.

## The model

The scoreboard is a table of bookings of `Lib.Booking`, whose rows are those of a type. A
step of either function is a `Placement`: nothing, a new row, or a row that is free.
`RowInv` is what every attempt keeps. `Retypes` is the step that gives the logic of a new
row to a node that is on a row: `newRow` changes the graph of the nodes at the name of the
row.

## What is proved

* `placement_place`, `placement_placeMaxArea`: the steps of the two functions;
* `RowInv.placement`: a step that does not retype a node keeps the rows;
* `isSome_resourceScheduling`: the scheduling comes to an end;
* `rowsSound_of_not_retypes`: what is on the rows after any number of attempts, and in the
  legend after the first.
-/

namespace Octantis

open Std Lib

namespace Scheduling

variable {sizes : Sizes} {s s' : Scheduling} {id id' HWid row LiMtype : Text}

/-! ### The life of a node -/

/-- The times of its life. -/
def life (s : Scheduling) (id : Text) : Set ℤ := Set.Icc (s.Tstart id) (s.Tend id)

theorem le_foldl_max (times : List ℤ) (t : ℤ) : t ≤ times.foldl (fun Tend t => max t Tend) t := by
  induction times generalizing t with
  | nil => exact le_rfl
  | cons t' times ih => exact (le_max_right t' t).trans (ih _)

theorem Tstart_le_Tend (s : Scheduling) (id : Text) : s.Tstart id ≤ s.Tend id := by
  have h := le_foldl_max ((s.graph.node id).children.map fun child =>
    s.resultALAP[child]?.getD 0) (s.Tstart id)
  rw [List.foldl_map] at h
  exact h

theorem life_nonempty (s : Scheduling) (id : Text) : (s.life id).Nonempty :=
  Set.nonempty_Icc.mpr (s.Tstart_le_Tend id)

theorem mem_times {t : ℤ} : t ∈ s.times id ↔ t ∈ s.life id := by
  unfold times life
  rw [List.mem_map, Set.mem_Icc]
  constructor
  · rintro ⟨k, hk, rfl⟩
    have hk := List.mem_range.mp hk
    lia
  · rintro ⟨hle, hge⟩
    exact ⟨(t - s.Tstart id).toNat, List.mem_range.mpr (by lia), by lia⟩

/-! ### The scoreboard -/

/-- The scoreboard as a table: the rows of every type. -/
def table (s : Scheduling) : BookingTable (Text × Text) ℤ Text := fun key => s.scoreboard key.1 key.2

theorem foldl_update (ts : List ℤ) (board : ℤ → Option Text) (id : Text) (t : ℤ) :
    ts.foldl (fun board t => Function.update board t (some id)) board t =
      if t ∈ ts then some id else board t := by
  induction ts generalizing board with
  | nil => rfl
  | cons t' ts ih =>
    rw [List.foldl_cons, ih]
    by_cases hmem : t ∈ ts
    · rw [if_pos hmem, if_pos (List.mem_cons_of_mem _ hmem)]
    · rw [if_neg hmem]
      by_cases ht : t = t'
      · rw [ht, Function.update_self, if_pos List.mem_cons_self]
      · rw [Function.update_of_ne ht, if_neg (List.not_mem_cons_of_ne_of_not_mem ht hmem)]

/-- To note a node is to book the row for its life. -/
theorem booking_note (hfree : ∀ t ∈ s.life id, s.table (s.LiMtype id, HWid) t = none) :
    BookingTable.Booking s.table (s.note id HWid).table (s.life id) (s.LiMtype id, HWid) id where
  nonempty := s.life_nonempty id
  free := hfree
  inside t ht := by
    simp only [table, note, Function.update_self, foldl_update]
    exact if_pos (mem_times.mpr ht)
  outside t ht := by
    simp only [table, note, Function.update_self, foldl_update]
    exact if_neg fun hmem => ht (mem_times.mp hmem)
  elsewhere key hkey := by
    unfold table note
    by_cases htype : key.1 = s.LiMtype id
    · have hrow : key.2 ≠ HWid := fun hrow => hkey (Prod.ext htype hrow)
      rw [htype]
      simp only [Function.update_self, Function.update_of_ne hrow]
    · simp only [Function.update_of_ne htype]

/-! ### The two ways to place a node -/

/-- The name of a row. -/
def rowName (k : ℕ) : Text := '#' :: (toString k).toList

theorem rowName_injective : Function.Injective rowName := fun _ _ h =>
  Nat.repr_injective (String.toList_inj.mp (List.cons_injective h))

theorem available_eq_some (h : s.available id = some HWid) :
    (∃ n, (s.usage (s.LiMtype id))[HWid]? = some n) ∧ ∀ t ∈ s.life id, s.table
    (s.LiMtype id, HWid) t = none := by
  unfold available at h
  have hmem := List.mem_of_find?_eq_some h
  have hfree := List.find?_some h
  rw [decide_eq_true_eq] at hfree
  refine ⟨?_, fun t ht => hfree t (mem_times.mpr ht)⟩
  rw [ExtTreeMap.mem_keys, ← ExtTreeMap.isSome_getElem?_iff_mem] at hmem
  exact Option.isSome_iff_exists.mp hmem

theorem available_of_not_mem (h : s.LiMtype id ∉ s.typeUsage) : s.available id = none := by
  unfold available usage
  rw [ExtTreeMap.getElem?_eq_none h]
  rfl

/-- A type that is not there has no rows to be searched. -/
theorem search_eq (s : Scheduling) (id : Text) :
    (if s.LiMtype id ∈ s.typeUsage then s.available id else none) = s.available id := by
  split_ifs with hmem
  · rfl
  · exact (available_of_not_mem hmem).symm

/-- The step that makes a row, in `resourceScheduling`. -/
def CreatesRow (sizes : Sizes) (s : Scheduling) (id : Text) : Prop :=
  (s.graph.node id).getType = Node.REG ∧ s.memUsage < sizes.memSize

/-- The step that makes a row, in `resourceSchedulingMaxArea`. -/
def CreatesRowMaxArea (sizes : Sizes) (s : Scheduling) (id : Text) : Prop :=
  (s.graph.node id).getType = Node.REG ∧ s.available id = none ∧
    (sizes.memSize = 0 ∨ s.memUsage < sizes.memSize)

/-- What a step does. -/
inductive Placement (sizes : Sizes) (creates : Prop) (s : Scheduling) (id : Text) : Scheduling → Prop where
  /-- The node is not placed. -/
  | skip : Placement sizes creates s id s
  /-- It gets a row of its own. -/
  | create (h : creates) (space : sizes.memSize = 0 ∨ s.memUsage < sizes.memSize) :
    Placement sizes creates s id (s.newRow id)
  /-- It gets a row that is free. -/
  | reuse (HWid : Text) (h : s.available id = some HWid) : Placement sizes creates s id (s.reuseRow sizes id HWid)

theorem placement_place (h : place sizes s id = some s') :
    Placement sizes (CreatesRow sizes s id) s id s' := by
  unfold place at h
  cases hrow : s.available id with
  | some HWid =>
    simp only [hrow] at h
    split_ifs at h with htype hspace
    · cases h
      exact .create ⟨htype, hspace⟩ (.inr hspace)
    · cases h
      exact .reuse HWid hrow
    · cases h
      exact .skip
  | none =>
    simp only [hrow] at h
    split_ifs at h with htype hspace
    · cases h
      exact .create ⟨htype, hspace⟩ (.inr hspace)
    · cases h
      exact .skip
    · cases h
      exact .skip

theorem placement_placeMaxArea (h : placeMaxArea sizes s id = some s') :
    Placement sizes (CreatesRowMaxArea sizes s id) s id s' := by
  unfold placeMaxArea at h
  rw [search_eq] at h
  cases hrow : s.available id with
  | some HWid =>
    simp only [hrow] at h
    split_ifs at h
    · cases h
      exact .reuse HWid hrow
    · cases h
      exact .skip
  | none =>
    simp only [hrow] at h
    split_ifs at h with htype hspace
    · cases h
      exact .create ⟨htype, hrow, hspace⟩ hspace
    · cases h
      exact .skip
    · cases h
      exact .skip

/-! ### What every attempt keeps -/

/-- The node is on the row. -/
def OnRow (s : Scheduling) (row id : Text) : Prop := ∃ LiMtype, s.table.On (LiMtype, row) id

/-- **The step retypes a node**: it makes a row with logic whose name is that of a node without
logic which is on a row, or is to be. -/
def Retypes (creates : Prop) (s : Scheduling) (id : Text) : Prop :=
  creates ∧ s.LiMtype id ≠ Node.REG ∧ ¬ s.graph.CarriesLogic s.newHWid ∧
    (s.newHWid = id ∨ ∃ row, s.OnRow row s.newHWid)

/-- **The rows** between two steps. -/
structure RowInv (sizes : Sizes) (s : Scheduling) : Prop where
  booked : s.table.Booked s.life
  typed : ∀ LiMtype row id, s.table.On (LiMtype, row) id → s.LiMtype id = LiMtype
  numbered : ∀ LiMtype row id, s.table.On (LiMtype, row) id → ∃ k < s.memUsage, row = rowName k
  oneType : ∀ LiMtype LiMtype' row id id', s.table.On (LiMtype, row) id → s.table.On (LiMtype', row) id' →
    LiMtype = LiMtype'
  capacity : ∀ key, {id | s.table.On key id}.encard ≤ sizes.muxSize
  counted : ∀ (LiMtype row : Text) (n : ℕ), (s.usage LiMtype)[row]? = some n →
    {id | s.table.On (LiMtype, row) id}.encard ≤ n ∧ n < sizes.muxSize ∧ ∃ id, s.table.On (LiMtype, row) id
  space : sizes.memSize ≠ 0 → s.memUsage ≤ sizes.memSize

/-- Nothing is on the rows when an attempt begins. -/
theorem rowInv_of_empty (hboard : s.scoreboard = fun _ _ _ => none) (husage : s.typeUsage = ∅)
    (hmem : s.memUsage = 0) : RowInv sizes s := by
  have hon : ∀ key id, ¬ s.table.On key id := by
    rintro key id ⟨t, ht⟩
    rw [table, hboard] at ht
    cases ht
  have hno : ∀ LiMtype, s.usage LiMtype = ∅ := fun LiMtype => by
    rw [usage, husage, ExtTreeMap.getElem?_empty, Option.getD_none]
  refine {
    booked := fun row id h => absurd h (hon row id)
    typed := fun _ _ _ h => absurd h (hon _ _)
    numbered := fun _ _ _ h => absurd h (hon _ _)
    oneType := fun _ _ _ _ _ h => absurd h (hon _ _)
    capacity := fun key => ?_
    counted := fun LiMtype row n h => ?_
    space := fun _ => by lia }
  · rw [show {id | s.table.On key id} = ∅ from Set.eq_empty_of_forall_notMem (hon key), Set.encard_empty]
    exact zero_le
  · rw [hno, ExtTreeMap.getElem?_empty] at h
    cases h

/-! ### The counts -/

theorem usage_insert (s : Scheduling) (LiMtype LiMtype' : Text) (rows : ExtTreeMap Text ℕ) :
    (s.typeUsage.insert LiMtype rows)[LiMtype']?.getD ∅ =
      if LiMtype' = LiMtype then rows else s.usage LiMtype' := by
  rw [ExtTreeMap.getElem?_insert]
  by_cases h : LiMtype' = LiMtype
  · rw [if_pos (Std.compare_eq_iff_eq.mpr h.symm), if_pos h, Option.getD_some]
  · rw [if_neg fun heq => h (Std.compare_eq_iff_eq.mp heq).symm, if_neg h, usage]

/-- The counts after that of one row is set, or taken out. -/
theorem usage_insert_of_ne (s : Scheduling) {rows : ExtTreeMap Text ℕ}
    (hrows : ∀ row ≠ HWid, rows[row]? = (s.usage LiMtype)[row]?) {LiMtype' : Text}
    (h : (LiMtype', row) ≠ (LiMtype, HWid)) :
    ((s.typeUsage.insert LiMtype rows)[LiMtype']?.getD ∅)[row]? = (s.usage LiMtype')[row]? := by
  rw [usage_insert]
  split
  · next heq =>
    rw [heq] at h ⊢
    exact hrows row fun hrow => h (Prod.ext rfl hrow)
  · rfl

theorem getElem?_insert_of_ne (rows : ExtTreeMap Text ℕ) (count : ℕ) (h : row ≠ HWid) :
    (rows.insert HWid count)[row]? = rows[row]? := by
  rw [ExtTreeMap.getElem?_insert, if_neg fun heq => h (Std.compare_eq_iff_eq.mp heq).symm]

theorem getElem?_erase_of_ne (rows : ExtTreeMap Text ℕ) (h : row ≠ HWid) :
    (rows.erase HWid)[row]? = rows[row]? := by
  rw [ExtTreeMap.getElem?_erase, if_neg fun heq => h (Std.compare_eq_iff_eq.mp heq).symm]

theorem setUsage_eq_some {count m : ℕ} {LiMtype' : Text}
    (h : ((s.setUsage LiMtype HWid count)[LiMtype']?.getD ∅)[row]? = some m) :
    ((LiMtype', row) ≠ (LiMtype, HWid) ∧ (s.usage LiMtype')[row]? = some m) ∨
      ((LiMtype', row) = (LiMtype, HWid) ∧ m = count) := by
  unfold setUsage at h
  by_cases hkey : (LiMtype', row) = (LiMtype, HWid)
  · cases hkey
    rw [usage_insert, if_pos rfl, ExtTreeMap.getElem?_insert_self] at h
    exact .inr ⟨rfl, (Option.some.inj h).symm⟩
  · rw [usage_insert_of_ne s (fun row => getElem?_insert_of_ne _ count) hkey] at h
    exact .inl ⟨hkey, h⟩

/-- **A node is placed**: on a row of its type, or on a new one, that has room for it. -/
theorem RowInv.book {n : ℕ} (h : RowInv sizes s)
    (hbook : BookingTable.Booking s.table s'.table (s.life id) (s.LiMtype id, HWid) id)
    (hlife : s'.life = s.life)
    (htype : ∀ u, (u = id ∨ ∃ row, s.OnRow row u) → s'.LiMtype u = s.LiMtype u)
    (hle : s.memUsage ≤ s'.memUsage) (hname : ∃ k < s'.memUsage, HWid = rowName k)
    (hone : ∀ LiMtype id', s.table.On (LiMtype, HWid) id' → LiMtype = s.LiMtype id)
    (hn : {id' | s.table.On (s.LiMtype id, HWid) id'}.encard ≤ n) (hmux : n + 1 ≤ sizes.muxSize)
    (husage : ∀ (LiMtype row : Text) (m : ℕ), (s'.usage LiMtype)[row]? = some m →
      ((LiMtype, row) ≠ (s.LiMtype id, HWid) ∧ (s.usage LiMtype)[row]? = some m) ∨
        ((LiMtype, row) = (s.LiMtype id, HWid) ∧ m = n + 1 ∧ m < sizes.muxSize))
    (hspace : sizes.memSize ≠ 0 → s'.memUsage ≤ sizes.memSize) : RowInv sizes s' := by
  have hcard : {id' | s'.table.On (s.LiMtype id, HWid) id'}.encard ≤ n + 1 := hbook.encard_le hn
  have hother : ∀ key, key ≠ (s.LiMtype id, HWid) → ∀ id', s'.table.On key id' ↔ s.table.On key id' :=
    fun key hkey id' => by rw [hbook.on_iff, or_iff_left fun heq => hkey heq.1]
  refine {
    booked := hlife ▸ hbook.booked h.booked
    typed := fun LiMtype row u hu => ?_
    numbered := fun LiMtype row u hu => ?_
    oneType := fun LiMtype LiMtype' row u u' hu hu' => ?_
    capacity := fun key => ?_
    counted := fun LiMtype row m hm => ?_
    space := hspace }
  · rcases hbook.on_iff.mp hu with hu | ⟨hkey, rfl⟩
    · rw [htype u (.inr ⟨row, LiMtype, hu⟩)]
      exact h.typed LiMtype row u hu
    · rw [htype u (.inl rfl)]
      exact (congrArg Prod.fst hkey).symm
  · rcases hbook.on_iff.mp hu with hu | ⟨hkey, -⟩
    · obtain ⟨k, hk, hrow⟩ := h.numbered LiMtype row u hu
      exact ⟨k, hk.trans_le hle, hrow⟩
    · rw [show row = HWid from congrArg Prod.snd hkey]
      exact hname
  · rcases hbook.on_iff.mp hu with hu | ⟨hkey, -⟩ <;> rcases hbook.on_iff.mp hu' with hu' | ⟨hkey', -⟩
    · exact h.oneType LiMtype LiMtype' row u u' hu hu'
    · cases hkey'
      exact hone LiMtype u hu
    · cases hkey
      exact (hone LiMtype' u' hu').symm
    · exact (congrArg Prod.fst hkey).trans (congrArg Prod.fst hkey').symm
  · by_cases hkey : key = (s.LiMtype id, HWid)
    · rw [hkey]
      exact hcard.trans (by exact_mod_cast hmux)
    · simp only [hother key hkey]
      exact h.capacity key
  · rcases husage LiMtype row m hm with ⟨hkey, hm⟩ | ⟨hkey, rfl, hlt⟩
    · simp only [hother _ hkey]
      exact h.counted LiMtype row m hm
    · rw [hkey]
      exact ⟨by exact_mod_cast hcard, hlt, id, hbook.on_iff.mpr (.inr ⟨rfl, rfl⟩)⟩

/-! ### A new row -/

theorem newHWid_eq (s : Scheduling) : s.newHWid = rowName s.memUsage := rfl

theorem children_newRow (s : Scheduling) (id u : Text) :
    ((s.newRow id).graph.node u).children = (s.graph.node u).children := by
  unfold newRow
  dsimp only
  split
  · exact NodeMap.children_setLiM s.graph
  · rfl

theorem life_newRow (s : Scheduling) (id : Text) : (s.newRow id).life = s.life := by
  funext u
  unfold life Tend
  rw [children_newRow]
  rfl

/-- A node on a row, and the one that is placed, keep their types in a step that does not retype. -/
theorem LiMtype_newRow {creates : Prop} (hc : creates) (h : ¬ Retypes creates s id) {u : Text}
    (hu : u = id ∨ ∃ row, s.OnRow row u) : (s.newRow id).LiMtype u = s.LiMtype u := by
  unfold newRow LiMtype
  dsimp only
  split
  · next hREG =>
    rw [NodeMap.node_update]
    split
    · next heq =>
      have hlogic : s.graph.CarriesLogic s.newHWid := by
        by_contra hlogic
        exact h ⟨hc, hREG, hlogic, heq ▸ hu⟩
      rw [Node.setLiM, if_neg hlogic, heq]
    · rfl
  · rfl

/-- Nobody is on the row that comes next. -/
theorem RowInv.not_on_newHWid (h : RowInv sizes s) (LiMtype id' : Text) :
    ¬ s.table.On (LiMtype, s.newHWid) id' := by
  intro hon
  obtain ⟨k, hk, hrow⟩ := h.numbered LiMtype s.newHWid id' hon
  have hmem : s.memUsage = k := rowName_injective hrow
  lia

theorem RowInv.booking_newRow (h : RowInv sizes s) (id : Text) :
    BookingTable.Booking s.table (s.newRow id).table (s.life id) (s.LiMtype id, s.newHWid) id :=
  booking_note fun t _ => Option.eq_none_iff_forall_ne_some.mpr fun id' hid =>
    h.not_on_newHWid (s.LiMtype id) id' ⟨t, hid⟩

theorem RowInv.create {creates : Prop} (h : RowInv sizes s) (hc : creates) (hret : ¬ Retypes creates s id)
    (space : sizes.memSize = 0 ∨ s.memUsage < sizes.memSize) : RowInv sizes (s.newRow id) := by
  have htwo := sizes.two_le
  have hmem : (s.newRow id).memUsage = s.memUsage + 1 := rfl
  refine h.book (n := 0) (h.booking_newRow id) (s.life_newRow id) (fun u => LiMtype_newRow hc hret)
    (by lia) ⟨s.memUsage, by lia, s.newHWid_eq⟩ (fun LiMtype id' hon => absurd hon (h.not_on_newHWid _ _)) ?_
    (by lia) (fun LiMtype row m hm => ?_) (fun hne => by lia)
  · rw [Set.eq_empty_of_forall_notMem (s := {id' | s.table.On _ id'}) (h.not_on_newHWid (s.LiMtype id)), Set.encard_empty]
    exact zero_le
  · rcases setUsage_eq_some hm with hold | ⟨hkey, hcount⟩
    · exact .inl hold
    · exact .inr ⟨hkey, by lia, by lia⟩

/-! ### A row that is there -/

theorem booking_reuseRow (sizes : Sizes) (hrow : s.available id = some HWid) :
    BookingTable.Booking s.table (s.reuseRow sizes id HWid).table (s.life id) (s.LiMtype id, HWid) id :=
  booking_note (available_eq_some hrow).2

/-- A row that is found is one of the rows of the type. -/
theorem RowInv.exists_of_available (h : RowInv sizes s) (hrow : s.available id = some HWid) :
    ∃ n, (s.usage (s.LiMtype id))[HWid]? = some n ∧
      {id' | s.table.On (s.LiMtype id, HWid) id'}.encard ≤ n ∧ n < sizes.muxSize ∧
        ∃ id', s.table.On (s.LiMtype id, HWid) id' := by
  obtain ⟨n, hn⟩ := (available_eq_some hrow).1
  exact ⟨n, hn, h.counted _ _ n hn⟩

theorem RowInv.oneType_of_available (h : RowInv sizes s) (hrow : s.available id = some HWid)
    (LiMtype id' : Text)
    (hon : s.table.On (LiMtype, HWid) id') : LiMtype = s.LiMtype id := by
  obtain ⟨n, -, -, -, id₀, hon₀⟩ := h.exists_of_available hrow
  exact h.oneType _ _ HWid id' id₀ hon hon₀

/-- The counts after a row of count `n` is used once more. -/
theorem usage_reuseRow {n : ℕ} (hget : (s.usage (s.LiMtype id))[HWid]? = some n) (LiMtype : Text) :
    (s.reuseRow sizes id HWid).usage LiMtype =
      (if n + 1 = sizes.muxSize then
        s.typeUsage.insert (s.LiMtype id) (((s.usage (s.LiMtype id)).insert HWid (n + 1)).erase HWid)
      else s.setUsage (s.LiMtype id) HWid (n + 1))[LiMtype]?.getD ∅ := by
  simp only [reuseRow, hget, Option.getD_some]
  rfl

theorem RowInv.reuse (h : RowInv sizes s) (hrow : s.available id = some HWid) :
    RowInv sizes (s.reuseRow sizes id HWid) := by
  obtain ⟨n, hget, hcard, hlt, id₀, hon₀⟩ := h.exists_of_available hrow
  refine h.book (n := n) (booking_reuseRow sizes hrow) rfl (fun _ _ => rfl) le_rfl
    (h.numbered _ _ id₀ hon₀) (h.oneType_of_available hrow) hcard (by lia)
    (fun LiMtype row m hm => ?_) h.space
  rw [usage_reuseRow hget] at hm
  split_ifs at hm with hfull
  · -- the row is full, and its count is gone
    by_cases hkey : (LiMtype, row) = (s.LiMtype id, HWid)
    · cases hkey
      rw [usage_insert, if_pos rfl, ExtTreeMap.getElem?_erase_self] at hm
      cases hm
    · refine .inl ⟨hkey, ?_⟩
      rw [← hm]
      refine (usage_insert_of_ne s (fun row hne => ?_) hkey).symm
      rw [getElem?_erase_of_ne _ hne, getElem?_insert_of_ne _ _ hne]
  · rcases setUsage_eq_some hm with hold | ⟨hkey, hcount⟩
    · exact .inl hold
    · exact .inr ⟨hkey, hcount, by lia⟩

/-- **The step lemma.** -/
theorem RowInv.placement {creates : Prop} (h : RowInv sizes s) (hret : ¬ Retypes creates s id)
    (hstep : Placement sizes creates s id s') : RowInv sizes s' := by
  cases hstep with
  | skip => exact h
  | create hc space => exact h.create hc hret space
  | reuse HWid hrow => exact h.reuse hrow

/-! ### The legend -/

/-- The legend has every node at its row, once. -/
structure LegendInv (s : Scheduling) : Prop where
  mem : ∀ row id, id ∈ s.HWToNode row ↔ s.OnRow row id
  nodup : ∀ row, (s.HWToNode row).Nodup

theorem LegendInv.book (h : LegendInv s)
    (hbook : BookingTable.Booking s.table s'.table (s.life id) (s.LiMtype id, HWid) id)
    (hlegend : s'.HWToNode = pushBack s.HWToNode HWid id) (hnew : ¬ s.OnRow HWid id) : LegendInv s' := by
  have hon : ∀ row id', s'.OnRow row id' ↔ s.OnRow row id' ∨ (row = HWid ∧ id' = id) := by
    intro row id'
    unfold OnRow
    simp only [hbook.on_iff, Prod.mk.injEq]
    constructor
    · rintro ⟨LiMtype, hold | ⟨⟨-, hrow⟩, hid⟩⟩
      · exact .inl ⟨LiMtype, hold⟩
      · exact .inr ⟨hrow, hid⟩
    · rintro (⟨LiMtype, hold⟩ | ⟨hrow, hid⟩)
      · exact ⟨LiMtype, .inl hold⟩
      · exact ⟨s.LiMtype id, .inr ⟨⟨rfl, hrow⟩, hid⟩⟩
  refine ⟨fun row id' => ?_, fun row => ?_⟩
  · rw [hon, ← h.mem, hlegend, pushBack]
    by_cases hrow : row = HWid
    · rw [hrow, Function.update_self, List.mem_append, List.mem_singleton, eq_self_iff_true, true_and]
    · rw [Function.update_of_ne hrow, or_iff_left fun heq => hrow heq.1]
  · rw [hlegend, pushBack]
    by_cases hrow : row = HWid
    · rw [hrow, Function.update_self, ← List.concat_eq_append]
      exact (h.nodup HWid).concat fun hmem => hnew ((h.mem HWid id).mp hmem)
    · rw [Function.update_of_ne hrow]
      exact h.nodup row

theorem LegendInv.placement {creates : Prop} (h : LegendInv s) (hrows : RowInv sizes s)
    (hstep : Placement sizes creates s id s') : LegendInv s' := by
  cases hstep with
  | skip => exact h
  | create hc space =>
    refine h.book (hrows.booking_newRow id) rfl ?_
    rintro ⟨LiMtype, hon⟩
    exact hrows.not_on_newHWid LiMtype id hon
  | reuse HWid hrow =>
    have hbook := booking_reuseRow sizes hrow
    refine h.book hbook rfl ?_
    rintro ⟨LiMtype, hon⟩
    have htype := hrows.oneType_of_available hrow LiMtype id hon
    exact hbook.not_on hrows.booked (htype ▸ hon)

/-! ### The end -/

/-- **What is on the rows.** -/
structure RowsSound (sizes : Sizes) (s : Scheduling) : Prop where
  /-- The lives of the nodes on a row do not overlap. -/
  disjoint : ∀ row id id', s.OnRow row id → s.OnRow row id' → id ≠ id' → Disjoint (s.life id) (s.life id')
  /-- The nodes on a row are of one type. -/
  sameType : ∀ row id id', s.OnRow row id → s.OnRow row id' → s.LiMtype id = s.LiMtype id'
  /-- They are no more than the inputs of the mux. -/
  mux : ∀ row, {id | s.OnRow row id}.encard ≤ sizes.muxSize
  /-- The rows are no more than those of the memory. -/
  mem : sizes.memSize ≠ 0 → {row | ∃ id, s.OnRow row id}.encard ≤ sizes.memSize

theorem RowInv.rowsSound (h : RowInv sizes s) : RowsSound sizes s := by
  refine ⟨?_, ?_, fun row => ?_, fun hne => ?_⟩
  · rintro row id id' ⟨LiMtype, hid⟩ ⟨LiMtype', hid'⟩ hne
    cases h.oneType LiMtype LiMtype' row id id' hid hid'
    exact h.booked.disjoint hid hid' hne
  · rintro row id id' ⟨LiMtype, hid⟩ ⟨LiMtype', hid'⟩
    rw [h.typed LiMtype row id hid, h.typed LiMtype' row id' hid']
    exact h.oneType LiMtype LiMtype' row id id' hid hid'
  · by_cases hempty : ∃ id, s.OnRow row id
    · obtain ⟨id, LiMtype, hid⟩ := hempty
      have hsub : {id' | s.OnRow row id'} ⊆ {id' | s.table.On (LiMtype, row) id'} := by
        rintro id' ⟨LiMtype', hid'⟩
        cases h.oneType LiMtype LiMtype' row id id' hid hid'
        exact hid'
      exact (Set.encard_le_encard hsub).trans (h.capacity (LiMtype, row))
    · rw [Set.eq_empty_of_forall_notMem (s := {id | s.OnRow row id}) fun id hid => hempty ⟨id, hid⟩,
        Set.encard_empty]
      exact zero_le
  · have hsub : {row | ∃ id, s.OnRow row id} ⊆ rowName '' (Finset.range s.memUsage : Set ℕ) := by
      rintro row ⟨id, LiMtype, hid⟩
      obtain ⟨k, hk, hrow⟩ := h.numbered LiMtype row id hid
      exact ⟨k, Finset.mem_coe.mpr (Finset.mem_range.mpr hk), hrow.symm⟩
    calc {row | ∃ id, s.OnRow row id}.encard
        ≤ (rowName '' (Finset.range s.memUsage : Set ℕ)).encard := Set.encard_le_encard hsub
      _ ≤ (Finset.range s.memUsage : Set ℕ).encard := Set.encard_image_le _ _
      _ = s.memUsage := by rw [Set.encard_coe_eq_coe_finsetCard, Finset.card_range]
      _ ≤ sizes.memSize := by exact_mod_cast h.space hne

/-! ### The attempts -/

/-- The steps of `resourceScheduling`, in all of its attempts. -/
def steps (sizes : Sizes) (answers : List Answer) (s : Scheduling) : List (Transition Scheduling Text) :=
  attemptSteps (place sizes) order restart answers s

/-- The steps of `resourceSchedulingMaxArea`. -/
def stepsMaxArea (sizes : Sizes) (answers : List Answer) (s : Scheduling) : List (Transition Scheduling Text) :=
  attemptSteps (placeMaxArea sizes) order restart answers s

section Attempts

variable {step : Scheduling → Text → Option Scheduling} {creates : Scheduling → Text → Prop} {graph : NodeMap}
  {first : Answer} {answers : List Answer}
  (hstep : ∀ s id s', step s id = some s' → Placement sizes (creates s id) s id s')

include hstep

theorem rowInv_of_attempts
    (hret : ∀ t ∈ attemptSteps step order restart answers (start sizes graph first),
      ¬ Retypes (creates t.pre t.act) t.pre t.act)
    (h : attempts step order restart answers (start sizes graph first) = some s) : RowInv sizes s :=
  attempts_invariant (P := RowInv sizes) (rowInv_of_empty rfl rfl rfl)
    (fun _ _ _ => rowInv_of_empty rfl rfl rfl)
    (fun t ht hs hinv => hinv.placement (hret t ht) (hstep _ _ _ hs)) h

/-- The legend is right when the first attempt is the last. -/
theorem legendInv_of_attempts
    (hret : ∀ t ∈ attemptSteps step order restart answers (start sizes graph first),
      ¬ Retypes (creates t.pre t.act) t.pre t.act)
    (hfirst : (work step (start sizes graph first) (start sizes graph first).order).2 = [])
    (h : attempts step order restart answers (start sizes graph first) = some s) : LegendInv s := by
  rw [attempts_of_work hfirst] at h
  have hstart : LegendInv (start sizes graph first) := by
    refine ⟨fun row id => iff_of_false List.not_mem_nil ?_, fun row => List.nodup_nil⟩
    rintro ⟨LiMtype, t, ht⟩
    cases ht
  have hinv : RowInv sizes (work step (start sizes graph first) (start sizes graph first).order).1 ∧
      LegendInv (work step (start sizes graph first) (start sizes graph first).order).1 := by
    refine work_invariant (P := fun s => RowInv sizes s ∧ LegendInv s)
      ⟨rowInv_of_empty rfl rfl rfl, hstart⟩ fun t ht hs hinv => ?_
    have hplaced := hstep _ _ _ hs
    refine ⟨hinv.1.placement (hret t ?_) hplaced, hinv.2.placement hinv.1 hplaced⟩
    unfold attemptSteps
    exact List.mem_append_left _ ht
  exact Option.some.inj h ▸ hinv.2

/-- `_connect_HWedge` leaves the rows as they are. -/
theorem sound_of_attempts (h : (attempts step order restart answers (start sizes graph first)).map connect_HWedge =
      some s)
    (hret : ∀ t ∈ attemptSteps step order restart answers (start sizes graph first),
      ¬ Retypes (creates t.pre t.act) t.pre t.act) :
    RowsSound sizes s ∧
      ((work step (start sizes graph first) (start sizes graph first).order).2 = [] → LegendInv s) := by
  obtain ⟨s', hs', rfl⟩ := Option.map_eq_some_iff.mp h
  have hrows := (rowInv_of_attempts hstep hret hs').rowsSound
  refine ⟨⟨hrows.disjoint, hrows.sameType, hrows.mux, hrows.mem⟩, fun hfirst => ?_⟩
  have hlegend := legendInv_of_attempts hstep hret hfirst hs'
  exact ⟨hlegend.mem, hlegend.nodup⟩

/-- The scheduling comes to an end, if the solver has an answer for every new beginning. -/
theorem isSome_of_answers (hnone : ∀ s id, step s id = none → 0 < s.recursion)
    (h : s.recursion ≤ answers.length) : (attempts step order restart answers s).isSome := by
  refine isSome_attempts (fun s id s' hs => ?_) hnone (fun _ _ => rfl) h
  cases hstep s id s' hs with
  | skip => rfl
  | create => rfl
  | reuse => rfl

end Attempts

/-! ### The names of the rows -/

theorem onRow_note (h : (s.note id HWid).OnRow row id') : s.OnRow row id' ∨ id' = id := by
  obtain ⟨LiMtype, t, ht⟩ := h
  unfold table note at ht
  dsimp only at ht
  by_cases htype : LiMtype = s.LiMtype id
  · rw [htype, Function.update_self] at ht
    by_cases hrow : row = HWid
    · rw [hrow, Function.update_self, foldl_update] at ht
      split_ifs at ht
      · exact .inr (Option.some.inj ht).symm
      · exact .inl ⟨s.LiMtype id, t, hrow ▸ ht⟩
    · rw [Function.update_of_ne hrow] at ht
      exact .inl ⟨s.LiMtype id, t, ht⟩
  · rw [Function.update_of_ne htype] at ht
    exact .inl ⟨LiMtype, t, ht⟩

theorem onRow_placement {creates : Prop} (hstep : Placement sizes creates s id s') (h : s'.OnRow row id') :
    s.OnRow row id' ∨ id' = id := by
  cases hstep with
  | skip => exact .inl h
  | create => exact onRow_note h
  | reuse => exact onRow_note h

/-- No step retypes a node when no node that is placed has a name like those of the rows. -/
theorem not_retypes_of_names {step : Scheduling → Text → Option Scheduling}
    {creates : Scheduling → Text → Prop} {graph : NodeMap} {first : Answer} {answers : List Answer}
    (hstep : ∀ s id s', step s id = some s' → Placement sizes (creates s id) s id s')
    (hnames : ∀ t ∈ attemptSteps step order restart answers (start sizes graph first), t.act.head? ≠ some '#') :
    ∀ t ∈ attemptSteps step order restart answers (start sizes graph first),
      ¬ Retypes (creates t.pre t.act) t.pre t.act := by
  intro t ht hret
  have hon : ∀ row id, t.pre.OnRow row id → id.head? ≠ some '#' := by
    refine pre_of_mem_attemptSteps (P := fun s => ∀ row id, s.OnRow row id → id.head? ≠ some '#') ?_ ?_ ?_ ht
    · rintro row id ⟨LiMtype, t, ht⟩
      cases ht
    · rintro s answer - row id ⟨LiMtype, t, ht⟩
      cases ht
    · intro t ht hs ih row id hid
      rcases onRow_placement (hstep _ _ _ hs) hid with hold | rfl
      · exact ih row id hold
      · exact hnames t ht
  obtain ⟨-, -, -, hname | ⟨row, hrow⟩⟩ := hret
  · exact hnames t ht (hname ▸ rfl)
  · exact hon row _ hrow rfl

/-- The rows of a graph that is scheduled, and its legend. -/
theorem rowsSound_of_not_retypes (sizes : Sizes) (graph : NodeMap) (first : Answer) (answers : List Answer) :
    (∀ s, resourceScheduling sizes answers (start sizes graph first) = some s →
      (∀ t ∈ steps sizes answers (start sizes graph first),
        ¬ Retypes (CreatesRow sizes t.pre t.act) t.pre t.act) →
      RowsSound sizes s ∧
        ((work (place sizes) (start sizes graph first) (start sizes graph first).order).2 = [] → LegendInv s)) ∧
    ∀ s, resourceSchedulingMaxArea sizes answers (start sizes graph first) = some s →
      (∀ t ∈ stepsMaxArea sizes answers (start sizes graph first),
        ¬ Retypes (CreatesRowMaxArea sizes t.pre t.act) t.pre t.act) →
      RowsSound sizes s ∧
        ((work (placeMaxArea sizes) (start sizes graph first) (start sizes graph first).order).2 = [] →
          LegendInv s) := by
  constructor
  · intro s hs hret
    exact sound_of_attempts (fun _ _ _ => placement_place) hs hret
  · intro s hs hret
    exact sound_of_attempts (fun _ _ _ => placement_placeMaxArea) hs hret

/-- `r NOT a` in a memory of one row: the row of `a` is not one for `r`, in any attempt. -/
def oneRowSizes : Sizes := ⟨1, 4, Sizes.default.two_le⟩

def oneRowGraph : NodeMap := (SchedulerGraph.fileToGraph [.one "r".toList "a".toList]).graph

def oneRowAnswer : Answer := ⟨fun _ => 0, fun id => if id = "r".toList then 1 else 0⟩

theorem rowsSound_of_not_retypes_oneRow :
    (∃ s, resourceScheduling oneRowSizes (List.replicate 6 oneRowAnswer)
        (start oneRowSizes oneRowGraph oneRowAnswer) = some s ∧ RowsSound oneRowSizes s) ∧
      ∃ s, resourceSchedulingMaxArea oneRowSizes (List.replicate 6 oneRowAnswer)
        (start oneRowSizes oneRowGraph oneRowAnswer) = some s ∧ RowsSound oneRowSizes s := by
  have hboth := rowsSound_of_not_retypes oneRowSizes oneRowGraph oneRowAnswer (List.replicate 6 oneRowAnswer)
  constructor
  · obtain ⟨s, hs⟩ := Option.isSome_iff_exists.mp (by decide +kernel : (resourceScheduling oneRowSizes
      (List.replicate 6 oneRowAnswer) (start oneRowSizes oneRowGraph oneRowAnswer)).isSome)
    exact ⟨s, hs, (hboth.1 s hs (not_retypes_of_names (fun _ _ _ => placement_place) (by decide +kernel))).1⟩
  · obtain ⟨s, hs⟩ := Option.isSome_iff_exists.mp (by decide +kernel : (resourceSchedulingMaxArea oneRowSizes
      (List.replicate 6 oneRowAnswer) (start oneRowSizes oneRowGraph oneRowAnswer)).isSome)
    exact ⟨s, hs, (hboth.2 s hs (not_retypes_of_names (fun _ _ _ => placement_placeMaxArea)
      (by decide +kernel))).1⟩

/-- `#1 AND B C`: the second row is named like the result. -/
def retypedGraph : NodeMap :=
  (SchedulerGraph.fileToGraph [.two "#1".toList "AND".toList "B".toList "C".toList and_ne_notOp]).graph

def retypedAnswer : Answer :=
  ⟨fun id => if id = "#1".toList then 1 else 0, fun id => if id = "#1".toList then 1 else 0⟩

/-- The row of `C` gives its logic to the node `#1`, which is on the first row with `B`. -/
theorem not_rowsSound_retyped : ∃ s, resourceSchedulingMaxArea Sizes.default []
    (start Sizes.default retypedGraph retypedAnswer) = some s ∧ ¬ RowsSound Sizes.default s := by
  obtain ⟨s, hs⟩ := Option.isSome_iff_exists.mp (by decide +kernel : (resourceSchedulingMaxArea Sizes.default []
    (start Sizes.default retypedGraph retypedAnswer)).isSome)
  have hboard : (resourceSchedulingMaxArea Sizes.default [] (start Sizes.default retypedGraph retypedAnswer)).map
      (fun s => (s.scoreboard Node.REG (rowName 0) 1, s.scoreboard Node.REG (rowName 0) 0,
        decide (s.LiMtype "#1".toList = s.LiMtype "B".toList))) =
      some (some "#1".toList, some "B".toList, false) := by decide +kernel
  rw [hs, Option.map_some, Option.some.injEq, Prod.mk.injEq, Prod.mk.injEq, decide_eq_false_iff_not] at hboard
  obtain ⟨hresult, hsource, htypes⟩ := hboard
  refine ⟨s, hs, fun h => htypes ?_⟩
  exact h.sameType (rowName 0) _ _ ⟨Node.REG, 1, hresult⟩ ⟨Node.REG, 0, hsource⟩

/-! ### The number of attempts -/

theorem recursion_pos_of_place (h : place sizes s id = none) : 0 < s.recursion := by
  unfold place at h
  cases hrow : s.available id with
  | some HWid =>
    simp only [hrow] at h
    split_ifs at h
  | none =>
    simp only [hrow] at h
    split_ifs at h with _ _ hpos
    exact hpos

theorem recursion_pos_of_placeMaxArea (h : placeMaxArea sizes s id = none) : 0 < s.recursion := by
  unfold placeMaxArea at h
  rw [search_eq] at h
  cases hrow : s.available id with
  | some HWid =>
    simp only [hrow] at h
    split_ifs at h
  | none =>
    simp only [hrow] at h
    split_ifs at h with _ _ hpos
    exact hpos

/-- **Both functions return**, when the solver has an answer for every time that they begin
again. -/
theorem isSome_resourceScheduling (sizes : Sizes) (s : Scheduling) (answers : List Answer)
    (h : s.recursion ≤ answers.length) :
    (resourceScheduling sizes answers s).isSome ∧ (resourceSchedulingMaxArea sizes answers s).isSome := by
  unfold resourceScheduling resourceSchedulingMaxArea
  rw [Option.isSome_map, Option.isSome_map]
  exact ⟨isSome_of_answers (fun _ _ _ => placement_place) (fun _ _ => recursion_pos_of_place) h,
    isSome_of_answers (fun _ _ _ => placement_placeMaxArea) (fun _ _ => recursion_pos_of_placeMaxArea) h⟩

end Scheduling

end Octantis
