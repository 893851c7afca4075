import Octantis.Analysis.Accesses
import Octantis.Lib.Forest

/-!
# The iteration vectors

`collectLoopInfo` goes over the loops in preorder. It enters every loop under its iterator,
climbs from it to the outermost loop around it, and enters the iterators of the loops on the
way, which have been entered before; `getIterationVector` gives them back from the outermost
one.

## The model

The loops are a forest of `Lib.Forest`. `getLoopsInPreorder` gives every loop the loops that
`getParentLoop` climbs to, and `iteratorOps` are the registers that
`parseLoopHeaderAndLatch` returns as iterators, one loop after the other.

## What is proved

* `parseLoop_withNesting`: the parsing of a loop neither reads nor writes the maps of the nesting;
* `Registered.collectLoop`: a loop whose parents are entered is entered with them;
* `getIterationVector_of_isPath`: the iteration vectors of a forest whose loops have
  different iterators.
-/

namespace Octantis

open Std Lib

/-- `LI.getLoopsInPreorder()`, each loop with the loops above it. -/
def getLoopsInPreorder (forest : Forest Loop) : List Loop :=
  (forest.withAncestors []).map fun entry => { entry.1 with parents := entry.2.map (·.address) }

namespace Collector

variable {c c' : Collector} {L : Loop}

/-- `parseLoopPreheader` and `parseLoopHeaderAndLatch`. -/
def parseLoop (c : Collector) (L : Loop) : Option (Collector × Reg) :=
  (c.parseLoopPreheader L.preheader).parseLoopHeaderAndLatch L.header L.latch L.latchPredecessor

/-- The iterators of the loops, as they are parsed one after the other. -/
def iteratorOps (c : Collector) : List Loop → Option (List Reg)
  | [] => some []
  | L :: rest => do
    let (c, iteratorOp) ← c.parseLoop L
    let iteratorOps ← c.iteratorOps rest
    return iteratorOp :: iteratorOps

/-! ### The maps of the nesting -/

/-- The collector with other maps of the nesting. -/
def withNesting (m : ExtTreeMap Reg Reg) (n : ExtTreeMap Reg (List Reg)) (c : Collector) : Collector :=
  { c with loopIteratorMap := m, nestedLoopMap := n }

section Nesting

variable (m : ExtTreeMap Reg Reg) (n : ExtTreeMap Reg (List Reg))

/-- The header with other maps of the nesting. -/
def Header.withNesting (h : Header) : Header := { h with c := h.c.withNesting m n }

theorem preheaderStep_withNesting (c : Collector) (I : Instr) :
    (c.withNesting m n).preheaderStep I = (c.preheaderStep I).withNesting m n := by
  cases I with
  | store operand0 pointer =>
    cases operand0 with
    | constantInt => rfl
    | value address =>
      unfold preheaderStep withNesting
      dsimp only
      split <;> rfl
  | load | binary | icmp | branch | ptr | sext | other => rfl

theorem parseLoopPreheader_withNesting (preheader : List Instr) (c : Collector) :
    (c.withNesting m n).parseLoopPreheader preheader = (c.parseLoopPreheader preheader).withNesting m n := by
  induction preheader generalizing c with
  | nil => rfl
  | cons I rest ih =>
    show (preheaderStep (c.withNesting m n) I).parseLoopPreheader rest = _
    rw [preheaderStep_withNesting, ih]
    rfl

theorem headerStep_withNesting (latchPredecessor : Reg) (h : Header) (I : Instr) :
    headerStep latchPredecessor (h.withNesting m n) I =
      (headerStep latchPredecessor h I).map (·.withNesting m n) := by
  cases I with
  | load result pointer =>
    unfold headerStep headerLoad Header.withNesting withNesting
    dsimp only
    split
    · split <;> rfl
    · rfl
    · rfl
  | icmp result predicate operand0 operand1 =>
    cases operand1 with
    | constantInt address finalValue =>
      simp only [headerStep, headerIcmp, Header.withNesting, Option.bind_eq_bind, Option.map_bind,
        Function.comp_def]
      rfl
    | value address =>
      unfold headerStep headerIcmp Header.withNesting withNesting
      dsimp only
      split <;> rfl
  | branch => rfl
  | store | binary | ptr | sext | other => rfl

theorem foldlM_headerStep_withNesting (latchPredecessor : Reg) (instrs : List Instr) (h : Header) :
    instrs.foldlM (headerStep latchPredecessor) (h.withNesting m n) =
      (instrs.foldlM (headerStep latchPredecessor) h).map (·.withNesting m n) := by
  induction instrs generalizing h with
  | nil => rfl
  | cons I rest ih =>
    rw [List.foldlM_cons, List.foldlM_cons, headerStep_withNesting]
    cases headerStep latchPredecessor h I with
    | none => rfl
    | some h' => exact ih h'

/-- **The parsing of a loop** neither reads nor writes the maps of the nesting. -/
theorem parseLoop_withNesting (c : Collector) (L : Loop) :
    (c.withNesting m n).parseLoop L =
      (c.parseLoop L).map fun parsed => (parsed.1.withNesting m n, parsed.2) := by
  unfold parseLoop parseLoopHeaderAndLatch
  rw [parseLoopPreheader_withNesting]
  cases latchIncrement none L.latch.instrs with
  | none => rfl
  | some increment =>
    have hheader := foldlM_headerStep_withNesting m n L.latchPredecessor L.header.instrs
      ⟨c.parseLoopPreheader L.preheader, latchInfo L.header L.latch increment, none⟩
    simp only [Option.bind_eq_bind, Option.bind_some]
    have hstart : (⟨(c.parseLoopPreheader L.preheader).withNesting m n,
        latchInfo L.header L.latch increment, none⟩ : Header) =
          Header.withNesting m n
            ⟨c.parseLoopPreheader L.preheader, latchInfo L.header L.latch increment, none⟩ := rfl
    rw [hstart, hheader]
    cases L.header.instrs.foldlM (headerStep L.latchPredecessor)
        ⟨c.parseLoopPreheader L.preheader, latchInfo L.header L.latch increment, none⟩ with
    | none => rfl
    | some h =>
      cases hit : h.it with
      | none => simp [Header.withNesting, hit]
      | some it =>
        simp only [Option.map_some, Option.bind_some, Header.withNesting, hit]
        rfl

theorem iteratorOps_withNesting (loops : List Loop) (c : Collector) :
    (c.withNesting m n).iteratorOps loops = c.iteratorOps loops := by
  induction loops generalizing c with
  | nil => rfl
  | cons L rest ih =>
    unfold iteratorOps
    rw [parseLoop_withNesting]
    cases c.parseLoop L with
    | none => rfl
    | some parsed =>
      simp only [Option.map_some, Option.bind_eq_bind, Option.bind_some]
      rw [ih]

end Nesting

/-- The maps of the nesting after a loop is parsed. -/
theorem nesting_of_parseLoop {iteratorOp : Reg} (h : c.parseLoop L = some (c', iteratorOp)) :
    c'.loopIteratorMap = c.loopIteratorMap ∧ c'.nestedLoopMap = c.nestedLoopMap := by
  have hsame := parseLoop_withNesting c.loopIteratorMap c.nestedLoopMap c L
  rw [show c.withNesting c.loopIteratorMap c.nestedLoopMap = c from rfl, h, Option.map_some,
    Option.some.injEq, Prod.mk.injEq] at hsame
  rw [hsame.1]
  exact ⟨rfl, rfl⟩

/-- The loops around a loop are entered by `insertNewLoopIt` and `pushNestedLoop`. -/
theorem getElem?_pushNestedLoop {m : ExtTreeMap Reg (List Reg)} {loopIt : Reg} (h : m[loopIt]? = none)
    (parentIts : List Reg) (it : Reg) :
    ((m.insertIfNew loopIt []).modify loopIt (· ++ parentIts))[it]? =
      (parentIts.foldl (·.pushNestedLoop loopIt ·)
        ((⟨m, ∅⟩ : LoopInfoTable).insertNewLoopIt loopIt)).nestedLoopMap[it]? := by
  have hnew := getElem?_insertIfNew_of_none h ([] : List Reg)
  have hentered : ((⟨m, ∅⟩ : LoopInfoTable).insertNewLoopIt loopIt).nestedLoopMap[loopIt]? = some [] :=
    (hnew loopIt).trans (if_pos rfl)
  rw [(LoopInfoTable.foldl_pushNestedLoop loopIt parentIts hentered).2, ExtTreeMap.getElem?_modify]
  simp only [Std.compare_eq_iff_eq, hnew]
  by_cases hit : it = loopIt
  · simp only [hit, if_true, Option.map_some]
  · rw [if_neg (Ne.symm hit), if_neg hit, if_neg hit]
    exact ((hnew it).trans (if_neg hit)).symm

/-! ### The loops that are entered -/

/-- **The loops that are entered**: each under its iterator, with the iterators of the loops around
it. -/
structure Registered (iteratorOp : Reg → Reg) (entered : List Loop) (c : Collector) : Prop where
  iterators : ∀ address ∈ entered.map (·.address), c.loopIteratorMap[address]? = some (iteratorOp address)
  addresses : ∀ address ∉ entered.map (·.address), c.loopIteratorMap[address]? = none
  nested : ∀ it ∉ entered.map (fun L => iteratorOp L.address), c.nestedLoopMap[it]? = none
  around : ∀ L ∈ entered, c.nestedLoopMap[iteratorOp L.address]? = some (L.parents.map iteratorOp)

theorem registered_start (iteratorOp : Reg → Reg) (allocas : List (Reg × AllocatedType)) :
    Registered iteratorOp [] (start allocas) :=
  ⟨nofun, fun _ _ => ExtTreeMap.getElem?_empty, fun _ _ => ExtTreeMap.getElem?_empty, nofun⟩

variable {iteratorOp : Reg → Reg} {entered loops : List Loop}

/-- **A loop with an iterator of its own**, whose parents are entered, is entered with them. -/
theorem Registered.collectLoop (h : Registered iteratorOp entered c)
    (hparse : c.parseLoop L = some (c', iteratorOp L.address))
    (haddress : L.address ∉ entered.map (·.address))
    (hiterator : iteratorOp L.address ∉ entered.map fun L => iteratorOp L.address)
    (hparents : ∀ parent ∈ L.parents, parent ∈ entered.map (·.address)) :
    ∃ m n, c.collectLoop L = some (c'.withNesting m n) ∧
      Registered iteratorOp (entered ++ [L]) (c'.withNesting m n) := by
  obtain ⟨hm, hn⟩ := nesting_of_parseLoop hparse
  have hloops : ∀ address : Reg, (c'.loopIteratorMap.insertIfNew L.address (iteratorOp L.address))[address]? =
      if address = L.address then some (iteratorOp L.address) else c.loopIteratorMap[address]? := by
    rw [hm]
    exact getElem?_insertIfNew_of_none (h.addresses _ haddress) _
  have hparentIts : L.parents.mapM (fun parent =>
      (c'.loopIteratorMap.insertIfNew L.address (iteratorOp L.address))[parent]?) =
        some (L.parents.map iteratorOp) := by
    rw [mapM_eq_some_iff_map, List.map_map]
    refine List.map_congr_left fun parent hparent => ?_
    have hentered := hparents parent hparent
    have hne : parent ≠ L.address := fun heq => haddress (heq ▸ hentered)
    show some (iteratorOp parent) = _
    rw [hloops, if_neg hne, h.iterators parent hentered]
  have hnested : ∀ it : Reg, ((c'.nestedLoopMap.insertIfNew (iteratorOp L.address) []).modify
      (iteratorOp L.address) (· ++ L.parents.map iteratorOp))[it]? =
        if it = iteratorOp L.address then some (L.parents.map iteratorOp) else c.nestedLoopMap[it]? := by
    intro it
    have hnew := getElem?_insertIfNew_of_none (h.nested _ hiterator) ([] : List Reg)
    rw [hn, getElem?_pushNestedLoop (h.nested _ hiterator),
      (LoopInfoTable.foldl_pushNestedLoop _ _ ((hnew _).trans (if_pos rfl))).2, List.nil_append]
    split
    · rfl
    · next hit => exact (hnew it).trans (if_neg hit)
  refine ⟨c'.loopIteratorMap.insertIfNew L.address (iteratorOp L.address),
    (c'.nestedLoopMap.insertIfNew (iteratorOp L.address) []).modify (iteratorOp L.address)
      (· ++ L.parents.map iteratorOp), ?_, ?_⟩
  · show (c.parseLoop L).bind _ = _
    rw [hparse, Option.bind_some]
    show Option.bind _ _ = _
    rw [hparentIts]
    rfl
  · refine ⟨fun address hmem => ?_, fun address hmem => ?_, fun it hmem => ?_, fun L' hmem => ?_⟩
    · rw [List.map_append, List.mem_append, List.map_singleton, List.mem_singleton] at hmem
      refine (hloops address).trans ?_
      split
      · next heq => rw [heq]
      · next hne => exact h.iterators address (hmem.resolve_right hne)
    · rw [List.map_append, List.mem_append, List.map_singleton, List.mem_singleton, not_or] at hmem
      exact (hloops address).trans ((if_neg hmem.2).trans (h.addresses address hmem.1))
    · rw [List.map_append, List.mem_append, List.map_singleton, List.mem_singleton, not_or] at hmem
      exact (hnested it).trans ((if_neg hmem.2).trans (h.nested it hmem.1))
    · refine (hnested _).trans ?_
      rcases List.mem_append.mp hmem with hmem | hmem
      · have hne : iteratorOp L'.address ≠ iteratorOp L.address := fun heq =>
          hiterator (List.mem_map.mpr ⟨L', hmem, heq⟩)
        rw [if_neg hne]
        exact h.around L' hmem
      · rw [List.mem_singleton.mp hmem, if_pos rfl]

/-- **The loops of a list** in which every loop comes after its parents. -/
theorem Registered.collectLoopInfo (h : Registered iteratorOp entered c)
    (hparse : c.iteratorOps loops = some (loops.map fun L => iteratorOp L.address))
    (haddresses : ((entered ++ loops).map (·.address)).Nodup)
    (hiterators : ((entered ++ loops).map fun L => iteratorOp L.address).Nodup)
    (hparents : ∀ before L after, entered ++ loops = before ++ L :: after →
      ∀ parent ∈ L.parents, parent ∈ before.map (·.address)) :
    ∃ c', c.collectLoopInfo loops = some c' ∧ Registered iteratorOp (entered ++ loops) c' := by
  induction loops generalizing entered c with
  | nil => exact ⟨c, rfl, by rwa [List.append_nil]⟩
  | cons L rest ih =>
    obtain ⟨⟨c₁, iteratorOp₁⟩, hfirst, hparse⟩ := Option.bind_eq_some_iff.mp hparse
    obtain ⟨iteratorOps, hrest, hparse⟩ := Option.bind_eq_some_iff.mp hparse
    obtain ⟨rfl, rfl⟩ := List.cons.inj (Option.some.inj hparse)
    have hnew : ∀ {β : Type} (g : Loop → β), ((entered ++ L :: rest).map g).Nodup → g L ∉ entered.map g := by
      intro β g hnodup hmem
      rw [List.map_append, List.map_cons] at hnodup
      exact List.disjoint_of_nodup_append hnodup hmem List.mem_cons_self
    obtain ⟨m, n, hloop, hentered⟩ := h.collectLoop hfirst (hnew _ haddresses) (hnew _ hiterators)
      (hparents entered L rest rfl)
    rw [List.append_cons] at haddresses hiterators hparents ⊢
    have hparse' : (c₁.withNesting m n).iteratorOps rest = some (rest.map fun L => iteratorOp L.address) := by
      rw [iteratorOps_withNesting]
      exact hrest
    obtain ⟨c', hc', hall⟩ := ih hentered hparse' haddresses hiterators hparents
    refine ⟨c', ?_, hall⟩
    show (L :: rest).foldlM Collector.collectLoop c = some c'
    rw [List.foldlM_cons, hloop]
    exact hc'

/-! ### The forest -/

theorem map_getLoopsInPreorder {β : Type} (forest : Forest Loop) (g : Reg → β) :
    (getLoopsInPreorder forest).map (fun L => g L.address) = forest.preorder.map fun L => g L.address := by
  rw [getLoopsInPreorder, ← forest.map_fst_withAncestors [], List.map_map, List.map_map]
  rfl

/-- In preorder a loop comes after its parents. -/
theorem parents_before {forest : Forest Loop} {before after : List Loop}
    (h : getLoopsInPreorder forest = before ++ L :: after) :
    ∀ parent ∈ L.parents, parent ∈ before.map (·.address) := by
  obtain ⟨before', rest, hsplit, rfl, hrest⟩ := List.map_eq_append_iff.mp h
  obtain ⟨⟨L', ancestors⟩, after', rfl, rfl, -⟩ := List.map_eq_cons_iff.mp hrest
  intro parent hparent
  obtain ⟨L'', hL'', rfl⟩ := List.mem_map.mp hparent
  have hmem := (Forest.ancestors_before hsplit L'' hL'').resolve_left List.not_mem_nil
  obtain ⟨entry, hentry, rfl⟩ := List.mem_map.mp hmem
  rw [List.map_map]
  exact List.mem_map.mpr ⟨entry, hentry, rfl⟩

/-- The loops are all entered, each with the loops above it. -/
theorem exists_registered_of_forest {forest : Forest Loop} (allocas : List (Reg × AllocatedType))
    (hparse : (start allocas).iteratorOps (getLoopsInPreorder forest) =
      some (forest.preorder.map fun L => iteratorOp L.address))
    (hdistinct : (forest.preorder.map fun L => iteratorOp L.address).Nodup) :
    ∃ c, (start allocas).collectLoopInfo (getLoopsInPreorder forest) = some c ∧
      Registered iteratorOp (getLoopsInPreorder forest) c := by
  have haddresses : ((getLoopsInPreorder forest).map (·.address)).Nodup := by
    have hboth : (((getLoopsInPreorder forest).map (·.address)).map iteratorOp).Nodup := by
      rw [List.map_map]
      exact (map_getLoopsInPreorder forest iteratorOp).symm ▸ hdistinct
    exact hboth.of_map
  refine (registered_start iteratorOp allocas).collectLoopInfo ?_ haddresses ?_ fun before L after hsplit =>
    parents_before hsplit
  · rw [map_getLoopsInPreorder forest iteratorOp]
    exact hparse
  · rw [List.nil_append, map_getLoopsInPreorder forest iteratorOp]
    exact hdistinct

/-- **The iteration vectors** of a forest of loops with different iterators:
`getIterationVector` gives the iterators on the path from the outermost loop down to the loop,
each once, and no other. -/
theorem getIterationVector_of_isPath (forest : Forest Loop) (allocas : List (Reg × AllocatedType))
    (iteratorOp : Reg → Reg)
    (hparse : (start allocas).iteratorOps (getLoopsInPreorder forest) =
      some (forest.preorder.map fun L => iteratorOp L.address))
    (hdistinct : (forest.preorder.map fun L => iteratorOp L.address).Nodup) :
    ∃ c, (start allocas).collectLoopInfo (getLoopsInPreorder forest) = some c ∧
      ∀ outer L, forest.IsPath (outer ++ [L]) →
        c.getIterationVector (iteratorOp L.address) = (outer ++ [L]).map (fun L => iteratorOp L.address) ∧
        (c.getIterationVector (iteratorOp L.address)).Nodup ∧
        ∀ L' ∈ forest.preorder, L' ∉ outer ++ [L] →
          iteratorOp L'.address ∉ c.getIterationVector (iteratorOp L.address) := by
  obtain ⟨c, hc, hentered⟩ := exists_registered_of_forest allocas hparse hdistinct
  refine ⟨c, hc, fun outer L hpath => ?_⟩
  have hmem := Forest.mem_withAncestors_of_isPath hpath []
  rw [List.append_nil] at hmem
  have haround := hentered.around _ (List.mem_map_of_mem hmem)
  have hvector : c.getIterationVector (iteratorOp L.address) =
      (outer ++ [L]).map fun L => iteratorOp L.address := by
    unfold getIterationVector
    dsimp only at haround ⊢
    rw [haround]
    simp
  refine ⟨hvector, ?_, fun L' hL' hout => ?_⟩
  · rw [hvector]
    exact hdistinct.sublist (hpath.sublist.map _)
  · rw [hvector, List.mem_map]
    rintro ⟨L'', hL'', heq⟩
    have hsame := List.inj_on_of_nodup_map hdistinct (hpath.sublist.subset hL'') hL' heq
    exact hout (hsame ▸ hL'')

/-- The loop of an iterator that counts up to four, as the front end lays it out. -/
def countedLoop (n : Reg) : Loop where
  address := n
  preheader := [.store (.constantInt 1000 0) (n + 1)]
  header := ⟨n + 2, [.load (n + 3) (n + 1), .icmp (n + 4) (some .slt) (.value (n + 3)) (.constantInt 1001 4),
    .branch (n + 5)]⟩
  latch := ⟨n + 6, [.load (n + 7) (n + 1), .binary (n + 8) .add (.value (n + 7)) (.constantInt 1002 1),
    .store (.value (n + 8)) (n + 1)]⟩
  latchPredecessor := n + 5
  parents := []

/-- Two loops inside a loop inside a loop, and a loop after them. -/
def nestedLoops : Forest Loop :=
  .cons (countedLoop 100)
    (.cons (countedLoop 200) (.cons (countedLoop 300) .nil (.cons (countedLoop 400) .nil .nil)) .nil)
    (.cons (countedLoop 500) .nil .nil)

/-- The loops of `nestedLoops` two levels down have their own iterator after those of the two loops
around them. -/
theorem getIterationVector_of_isPath_threeDeep :
    ∃ c, (start [(101, .other), (201, .other), (301, .other), (401, .other), (501, .other)]).collectLoopInfo
        (getLoopsInPreorder nestedLoops) = some c ∧
      c.getIterationVector 301 = [101, 201, 301] ∧ c.getIterationVector 401 = [101, 201, 401] := by
  obtain ⟨c, hc, hvectors⟩ := getIterationVector_of_isPath nestedLoops
    [(101, .other), (201, .other), (301, .other), (401, .other), (501, .other)] (· + 1) (by decide +kernel)
    (by decide)
  have hfirst : nestedLoops.IsPath ([countedLoop 100, countedLoop 200] ++ [countedLoop 300]) :=
    .down _ _ (.down _ _ (.root _ _ _))
  have hsecond : nestedLoops.IsPath ([countedLoop 100, countedLoop 200] ++ [countedLoop 400]) :=
    .down _ _ (.down _ _ (.next _ _ (.root _ _ _)))
  exact ⟨c, hc, (hvectors _ _ hfirst).1, (hvectors _ _ hsecond).1⟩

end Collector

end Octantis
