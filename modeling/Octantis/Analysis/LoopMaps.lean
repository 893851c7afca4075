import Octantis.Analysis.LoopHeader

/-!
# The maps of the loops

What is in the maps of the collector after `collectLoopInfo` has gone over the loops of a
function, whatever their headers are: the blocks recorded as bodies, the iterators that
have an info, and the loops around each.

## The model

`bodies` are the blocks that a header gives for the body of its loop: those that it
branches to and the predecessor of the latch. `headerIterators` reads the iterators off the
headers: each is the last register that its header is the first to load.

## What is proved

* `gathered_collectLoopInfo`: after the loops the maps have entries for these blocks and
  iterators and for no others, and the loops around each iterator have one.
-/

namespace Octantis

open Std Lib

/-- The blocks that the branches of the header give for the body. -/
def Loop.bodies (L : Loop) : List Reg :=
  L.header.instrs.flatMap fun I =>
    match I with
    | .branch operand2 => [operand2, L.latchPredecessor]
    | _ => []

/-- The registers known to be iterators after some instructions of a header, and the last one that
is new. -/
def headerIterator (known : List Reg) (it : Option Reg) : List Instr → List Reg × Option Reg
  | [] => (known, it)
  | .load _ pointer :: rest =>
    if pointer ∈ known then headerIterator known it rest else headerIterator (known ++ [pointer]) (some pointer) rest
  | _ :: rest => headerIterator known it rest

/-- The iterators of the loops: of each the last register that its header is the first to load. -/
def headerIterators (known : List Reg) : List Loop → List Reg
  | [] => []
  | L :: rest =>
    (headerIterator known none L.header.instrs).2.toList ++
      headerIterators (headerIterator known none L.header.instrs).1 rest

/-- The registers that the headers load. -/
def knownAfter (known : List Reg) (loops : List Loop) : List Reg :=
  loops.foldl (fun known L => (headerIterator known none L.header.instrs).1) known

/-- A header forgets no register that is known. -/
theorem mem_headerIterator_of_mem {known : List Reg} {r : Reg} (h : r ∈ known) (it : Option Reg)
    (instrs : List Instr) : r ∈ (headerIterator known it instrs).1 := by
  induction instrs generalizing known it with
  | nil => exact h
  | cons I rest ih =>
    cases I with
    | load result pointer =>
      rw [headerIterator]
      split
      · exact ih h it
      · exact ih (List.mem_append_left _ h) (some pointer)
    | store | binary | icmp | branch | ptr | sext | other => exact ih h it

/-- The register that a header gives is one that it makes known. -/
theorem headerIterator_eq_some {known : List Reg} {it : Option Reg} {instrs : List Instr} {r : Reg}
    (h : (headerIterator known it instrs).2 = some r) :
    it = some r ∨ r ∉ known ∧ r ∈ (headerIterator known it instrs).1 := by
  induction instrs generalizing known it with
  | nil => exact .inl h
  | cons I rest ih =>
    cases I with
    | load result pointer =>
      rw [headerIterator] at h ⊢
      split at h
      · next hmem =>
        rw [if_pos hmem]
        exact ih h
      · next hmem =>
        rw [if_neg hmem]
        rcases ih h with heq | ⟨hnew, hr⟩
        · obtain rfl := Option.some.inj heq
          exact .inr ⟨hmem, mem_headerIterator_of_mem (by simp) _ _⟩
        · exact .inr ⟨fun hr => hnew (List.mem_append_left _ hr), hr⟩
    | store | binary | icmp | branch | ptr | sext | other => exact ih h

/-- What is known stays known after the loops. -/
theorem mem_knownAfter_of_mem {known : List Reg} {r : Reg} (h : r ∈ known) (loops : List Loop) :
    r ∈ knownAfter known loops := by
  induction loops generalizing known with
  | nil => exact h
  | cons L rest ih => exact ih (mem_headerIterator_of_mem h none _)

/-- The iterators are known after the loops. -/
theorem mem_knownAfter_of_mem_headerIterators {known : List Reg} {loops : List Loop} {r : Reg}
    (h : r ∈ headerIterators known loops) : r ∈ knownAfter known loops := by
  induction loops generalizing known with
  | nil => cases h
  | cons L rest ih =>
    rcases List.mem_append.mp h with h | h
    · have hfirst := headerIterator_eq_some (Option.mem_toList.mp h)
      exact mem_knownAfter_of_mem (hfirst.resolve_left (nomatch ·)).2 rest
    · exact ih h

theorem headerIterators_append (known : List Reg) (loops rest : List Loop) :
    headerIterators known (loops ++ rest) = headerIterators known loops ++
      headerIterators (knownAfter known loops) rest := by
  induction loops generalizing known with
  | nil => rfl
  | cons L loops ih =>
    rw [List.cons_append, headerIterators, ih, headerIterators, List.append_assoc]
    rfl

namespace Collector

variable {c c' : Collector} {L : Loop}

/-! ### A header -/

/-- What the instructions of a header do to the members and the locals. -/
structure HeaderRun (latchPredecessor : Reg) (h : Header) (known : List Reg) (instrs : List Instr) (h' : Header) :
    Prop where
  iterators : ∀ r : Reg, r ∈ h'.c.iteratorsAliasMap ↔ r ∈ (headerIterator known h.it instrs).1
  it : h'.it = (headerIterator known h.it instrs).2
  loopBody : h'.loopInfo.loopBody = h.loopInfo.loopBody ++ instrs.flatMap fun I =>
    match I with
    | .branch operand2 => [operand2, latchPredecessor]
    | _ => []
  loopInfoMap : h'.c.loopInfoMap = h.c.loopInfoMap
  nestedLoopMap : h'.c.nestedLoopMap = h.c.nestedLoopMap
  loopIteratorMap : h'.c.loopIteratorMap = h.c.loopIteratorMap
  aliases : ∀ (A : Reg) (aliases : List Reg), h'.c.aliasInfoMap[A]? = some aliases → h.c.aliasInfoMap[A]? = some aliases
  arraysInfoMap : h'.c.arraysInfoMap = h.c.arraysInfoMap

/-- **The instructions of a header**, by the registers known before it. -/
theorem headerRun_foldlM {latchPredecessor : Reg} {instrs : List Instr} {h h' : Header} {known : List Reg}
    (hknown : ∀ r : Reg, r ∈ h.c.iteratorsAliasMap ↔ r ∈ known)
    (hrun : instrs.foldlM (headerStep latchPredecessor) h = some h') :
    HeaderRun latchPredecessor h known instrs h' := by
  induction instrs generalizing h known with
  | nil =>
    obtain rfl := Option.some.inj hrun
    exact ⟨hknown, rfl, (List.append_nil _).symm, rfl, rfl, rfl, fun _ _ h => h, rfl⟩
  | cons I rest ih =>
    obtain ⟨h₁, hstep, hafter⟩ := Option.bind_eq_some_iff.mp hrun
    cases I with
    | load result pointer =>
      by_cases hmem : pointer ∈ h.c.iteratorsAliasMap
      · rw [headerStep, headerLoad_of_mem hmem] at hstep
        obtain rfl := Option.some.inj hstep
        have hrest := ih (fun r => mem_renewAlias.trans (hknown r)) hafter
        have hsame :
            headerIterator known h.it (.load result pointer :: rest) = headerIterator known h.it rest :=
          if_pos ((hknown pointer).mp hmem)
        exact ⟨by rw [hsame]; exact hrest.iterators, by rw [hsame]; exact hrest.it, hrest.loopBody,
          hrest.loopInfoMap, hrest.nestedLoopMap, hrest.loopIteratorMap, hrest.aliases,
          hrest.arraysInfoMap⟩
      · obtain ⟨initValue, -, -, rfl⟩ := (headerLoad_of_not_mem hmem).mp hstep
        have hknown' : ∀ r : Reg, r ∈ (h.enter result pointer initValue).c.iteratorsAliasMap ↔
          r ∈ known ++ [pointer] := by
          intro r
          rw [List.mem_append, List.mem_singleton, ← hknown r, or_comm, eq_comm (a := r)]
          exact ExtTreeMap.mem_insert.trans (or_congr_left Std.compare_eq_iff_eq)
        have hrest := ih hknown' hafter
        have hnew : headerIterator known h.it (.load result pointer :: rest) =
            headerIterator (known ++ [pointer]) (some pointer) rest :=
          if_neg fun hmem' => hmem ((hknown pointer).mpr hmem')
        refine ⟨by rw [hnew]; exact hrest.iterators, by rw [hnew]; exact hrest.it, hrest.loopBody,
          hrest.loopInfoMap, hrest.nestedLoopMap, hrest.loopIteratorMap, fun A aliases hA => ?_,
            hrest.arraysInfoMap⟩
        have herased := hrest.aliases A aliases hA
        rw [Header.enter, ExtTreeMap.getElem?_erase] at herased
        exact (Option.ite_none_left_eq_some.mp herased).2
    | icmp result predicate operand0 operand1 =>
      obtain ⟨hc, hit, -, -, hbody⟩ := headerIcmp_keeps hstep
      have hrest := ih (h := h₁) (fun r => by rw [hc]; exact hknown r) hafter
      have hiterators := hrest.iterators
      have hlast := hrest.it
      rw [hit] at hiterators hlast
      exact ⟨hiterators, hlast, hrest.loopBody.trans (by rw [hbody]; rfl),
        hrest.loopInfoMap.trans (by rw [hc]),
        hrest.nestedLoopMap.trans (by rw [hc]), hrest.loopIteratorMap.trans (by rw [hc]),
        fun A aliases hA => hc ▸ hrest.aliases A aliases hA, hrest.arraysInfoMap.trans (by rw [hc])⟩
    | branch operand2 =>
      have hknown₁ : ∀ r : Reg, r ∈ h₁.c.iteratorsAliasMap ↔ r ∈ known := by
        obtain rfl := Option.some.inj hstep
        exact hknown
      have hrest := ih hknown₁ hafter
      obtain rfl := Option.some.inj hstep
      exact ⟨hrest.iterators, hrest.it, hrest.loopBody.trans (by rw [List.flatMap_cons, List.append_assoc]),
        hrest.loopInfoMap, hrest.nestedLoopMap, hrest.loopIteratorMap, hrest.aliases,
          hrest.arraysInfoMap⟩
    | store | binary | ptr | sext | other => cases hstep

/-! ### The loops -/

theorem parseLoopPreheader_keeps (preheader : List Instr) (c : Collector) :
    (c.parseLoopPreheader preheader).nestedLoopMap = c.nestedLoopMap ∧
      (c.parseLoopPreheader preheader).arraysInfoMap = c.arraysInfoMap := by
  induction preheader generalizing c with
  | nil => exact ⟨rfl, rfl⟩
  | cons I rest ih =>
    have hstep : (c.preheaderStep I).nestedLoopMap = c.nestedLoopMap ∧
      (c.preheaderStep I).arraysInfoMap = c.arraysInfoMap := by
      cases I with
      | store operand0 pointer =>
        cases operand0 with
        | constantInt => exact ⟨rfl, rfl⟩
        | value address =>
          rw [preheaderStep]
          split <;> exact ⟨rfl, rfl⟩
      | load | binary | icmp | branch | ptr | sext | other => exact ⟨rfl, rfl⟩
    exact ⟨(ih _).1.trans hstep.1, (ih _).2.trans hstep.2⟩

/-- **What the maps hold after some loops.** -/
structure Gathered (allocas : List (Reg × AllocatedType)) (loops : List Loop) (c : Collector) : Prop where
  known : ∀ r : Reg, r ∈ c.iteratorsAliasMap ↔ r ∈ knownAfter [] loops
  infos : ∀ it : Reg, it ∈ c.loopInfoMap ↔ it ∈ headerIterators [] loops
  bodies : ∀ BB : Reg, (∃ (it : Reg) (info : LoopInfoStruct), c.loopInfoMap[it]? = some info ∧ BB ∈ info.loopBody) ↔
    BB ∈ loops.flatMap (·.bodies)
  nested : ∀ it : Reg, it ∈ c.nestedLoopMap ↔ it ∈ c.loopInfoMap
  around : ∀ (it : Reg) (loops : List Reg), c.nestedLoopMap[it]? = some loops → ∀ parent ∈ loops, parent ∈ c.loopInfoMap
  loopIterators : ∀ address it : Reg, c.loopIteratorMap[address]? = some it → it ∈ c.loopInfoMap
  aliases : ∀ (A : Reg) (aliases : List Reg), c.aliasInfoMap[A]? = some aliases → A ∈ allocas.map (·.1) ∧ aliases = []
  arrays : ∀ A : Reg, A ∈ c.arraysInfoMap → A ∈ allocas.map (·.1)

/-- The entries of `insertIfNew` under a new key. -/
theorem mem_insertIfNew_iff {β : Type} {m : ExtTreeMap Reg β} {k a : Reg} {v : β} :
    a ∈ m.insertIfNew k v ↔ a ∈ m ∨ a = k := by
  rw [ExtTreeMap.mem_insertIfNew, Std.compare_eq_iff_eq, or_comm, eq_comm]

/-- **A loop** gets an info for its iterator, with its blocks. -/
theorem Gathered.collectLoop {allocas : List (Reg × AllocatedType)} {loops : List Loop}
    (hc : Gathered allocas loops c) (hloop : c.collectLoop L = some c') :
    Gathered allocas (loops ++ [L]) c' := by
  obtain ⟨⟨c₁, it⟩, hparse, hloop⟩ := Option.bind_eq_some_iff.mp hloop
  obtain ⟨parentIts, hparents, hloop⟩ := Option.bind_eq_some_iff.mp hloop
  obtain rfl := Option.some.inj hloop
  obtain ⟨increment, -, hparse⟩ := Option.bind_eq_some_iff.mp hparse
  obtain ⟨h, hrun, hparse⟩ := Option.bind_eq_some_iff.mp hparse
  obtain ⟨it', hit, hparse⟩ := Option.bind_eq_some_iff.mp hparse
  obtain ⟨rfl, rfl⟩ := Prod.mk.inj (Option.some.inj hparse)
  have hp := afterPreheader L.preheader c
  have hbefore : ∀ r : Reg,
      r ∈ (c.parseLoopPreheader L.preheader).iteratorsAliasMap ↔ r ∈ knownAfter [] loops :=
    fun r => (hp.iteratorsAliasMap r).trans (hc.known r)
  have hh := headerRun_foldlM hbefore hrun
  have hinfos : h.c.loopInfoMap = c.loopInfoMap := hh.loopInfoMap.trans hp.loopInfoMap
  have hnested : h.c.nestedLoopMap = c.nestedLoopMap :=
    hh.nestedLoopMap.trans (parseLoopPreheader_keeps _ c).1
  have haddresses : h.c.loopIteratorMap = c.loopIteratorMap := hh.loopIteratorMap.trans hp.loopIteratorMap
  have hlast : (headerIterator (knownAfter [] loops) none L.header.instrs).2 = some it' :=
    hh.it.symm.trans hit
  have hnew : it' ∉ c.loopInfoMap := by
    intro hmem
    have hfirst := (headerIterator_eq_some hlast).resolve_left (nomatch ·)
    exact hfirst.1 (mem_knownAfter_of_mem_headerIterators ((hc.infos it').mp hmem))
  have hinfosNew : ∀ r : Reg,
      r ∈ h.c.loopInfoMap.insertIfNew it' h.loopInfo ↔ r ∈ c.loopInfoMap ∨ r = it' := by
    rw [hinfos]
    exact fun r => mem_insertIfNew_iff
  have haddressesNew : ∀ address it : Reg,
      (h.c.loopIteratorMap.insertIfNew L.address it')[address]? = some it →
      it ∈ c.loopInfoMap ∨ it = it' := by
    intro address it hget
    rw [getElem?_insertIfNew_or, haddresses, Option.or_eq_some_iff] at hget
    rcases hget with hget | ⟨-, hget⟩
    · exact .inl (hc.loopIterators address it hget)
    · obtain ⟨-, heq⟩ := Option.ite_none_right_eq_some.mp hget
      exact .inr (Option.some.inj heq).symm
  refine ⟨fun r => ?_, fun r => ?_, fun BB => ?_, fun r => ?_, fun r around hget parent hparent => ?_,
    fun address it hget => (hinfosNew it).mpr (haddressesNew address it hget), fun A aliases hA => ?_,
    fun A hA => ?_⟩
  · rw [knownAfter, List.foldl_append]
    exact hh.iterators r
  · rw [hinfosNew, headerIterators_append, headerIterators, hlast, headerIterators, List.append_nil,
      List.mem_append, ← hc.infos, Option.mem_toList, Option.some.injEq, eq_comm]
  · have hbody : h.loopInfo.loopBody = L.bodies := hh.loopBody
    rw [List.flatMap_append, List.flatMap_singleton, List.mem_append, ← hc.bodies, ← hbody]
    constructor
    · rintro ⟨it, info, hget, hBB⟩
      rw [getElem?_insertIfNew_or, hinfos, Option.or_eq_some_iff] at hget
      rcases hget with hget | ⟨-, hget⟩
      · exact .inl ⟨it, info, hget, hBB⟩
      · obtain ⟨-, heq⟩ := Option.ite_none_right_eq_some.mp hget
        exact .inr (Option.some.inj heq ▸ hBB)
    · rintro (⟨it, info, hget, hBB⟩ | hBB)
      · refine ⟨it, info, ?_, hBB⟩
        rw [getElem?_insertIfNew_or, hinfos, hget, Option.some_or]
      · refine ⟨it', h.loopInfo, ?_, hBB⟩
        rw [getElem?_insertIfNew_or, hinfos, ExtTreeMap.getElem?_eq_none hnew, Option.none_or, if_pos rfl]
  · rw [hinfosNew, ← hc.nested, ← hnested]
    exact ExtTreeMap.mem_modify.trans mem_insertIfNew_iff
  · have hnotNested : it' ∉ c.nestedLoopMap := fun hmem => hnew ((hc.nested it').mp hmem)
    have hget' : (if it' = r then some parentIts else c.nestedLoopMap[r]?) = some around := by
      rw [← hget, ExtTreeMap.getElem?_modify, hnested]
      simp only [Std.compare_eq_iff_eq, getElem?_insertIfNew_or]
      by_cases heq : it' = r
      · subst heq
        rw [if_pos rfl, if_pos rfl, ExtTreeMap.getElem?_eq_none hnotNested, if_pos trivial]
        rfl
      · rw [if_neg heq, if_neg heq, if_neg heq, Option.or_none]
    rw [hinfosNew]
    split at hget'
    · obtain rfl := Option.some.inj hget'
      have hmap := mapM_eq_some_iff_map.mp hparents
      obtain ⟨address, -, haddress⟩ := List.mem_map.mp (hmap.symm ▸ List.mem_map_of_mem hparent :
        some parent ∈ L.parents.map _)
      exact haddressesNew address parent haddress
    · exact .inl (hc.around r around hget' parent hparent)
  · have hA' := hh.aliases A aliases hA
    rw [hp.aliasInfoMap] at hA'
    exact hc.aliases A aliases hA'
  · have harrays : h.c.arraysInfoMap = c.arraysInfoMap :=
      hh.arraysInfoMap.trans (parseLoopPreheader_keeps _ c).2
    have hA' : A ∈ h.c.arraysInfoMap := hA
    rw [harrays] at hA'
    exact hc.arrays A hA'

/-- The registers allocated have no alias yet. -/
theorem aliases_start (allocas : List (Reg × AllocatedType)) {A : Reg} {aliases : List Reg}
    (h : (start allocas).aliasInfoMap[A]? = some aliases) : A ∈ allocas.map (·.1) ∧ aliases = [] := by
  refine ⟨(mem_aliasInfoMap_start allocas A).mp (ExtTreeMap.mem_iff_isSome_getElem?.mpr (Option.isSome_of_eq_some h)), ?_⟩
  have hfold : ∀ info : CollectInfo, (∀ aliases, info.aliasInfoMap[A]? = some aliases → aliases = []) →
      ∀ aliases, (info.parseAllocaInstructions allocas).aliasInfoMap[A]? = some aliases → aliases = [] := by
    clear h
    induction allocas with
    | nil => exact fun _ h => h
    | cons I rest ih =>
      intro info hinfo
      refine ih (info.parseAlloca I) fun aliases hA => ?_
      rw [CollectInfo.parseAlloca, getElem?_insertIfNew_or, Option.or_eq_some_iff] at hA
      rcases hA with hA | ⟨-, hA⟩
      · exact hinfo aliases hA
      · exact (Option.some.inj (Option.ite_none_right_eq_some.mp hA).2).symm
  exact hfold _ (fun aliases hA => by simp at hA) aliases h

theorem arrays_start (allocas : List (Reg × AllocatedType)) {A : Reg}
    (h : A ∈ (start allocas).arraysInfoMap) :
    A ∈ allocas.map (·.1) := by
  have hfold : ∀ info : CollectInfo, A ∈ (info.parseAllocaInstructions allocas).arraysInfoMap →
      A ∈ info.arraysInfoMap ∨ A ∈ allocas.map (·.1) := by
    clear h
    induction allocas with
    | nil => exact fun _ h => .inl h
    | cons I rest ih =>
      intro info hA
      rcases ih (info.parseAlloca I) hA with hA | hA
      · rw [ExtTreeMap.mem_iff_isSome_getElem?, CollectInfo.getElem?_parseAlloca] at hA
        split at hA
        · next heq => exact .inr (heq ▸ List.mem_cons_self)
        · exact .inl (ExtTreeMap.mem_iff_isSome_getElem?.mpr hA)
      · exact .inr (List.mem_cons_of_mem _ hA)
  exact (hfold _ h).resolve_left ExtTreeMap.not_mem_empty

theorem gathered_start (allocas : List (Reg × AllocatedType)) : Gathered allocas [] (start allocas) := by
  refine ⟨fun r => ?_, fun it => ?_, fun BB => ?_, fun it => Iff.rfl, fun it loops hget => ?_,
    fun address it hget => ?_, fun A aliases hA => aliases_start allocas hA,
      fun A hA => arrays_start allocas hA⟩
  · rw [iteratorsAliasMap_start]
    simp [knownAfter]
  · simp [start, headerIterators]
  · simp [start]
  · simp [start] at hget
  · simp [start] at hget

/-- **What the maps hold after the loops of a function.** -/
theorem gathered_collectLoopInfo {allocas : List (Reg × AllocatedType)} {loops : List Loop}
    (hloops : (start allocas).collectLoopInfo loops = some c) : Gathered allocas loops c := by
  suffices hall : ∀ (done loops : List Loop) (c c' : Collector), Gathered allocas done c →
    c.collectLoopInfo loops = some c' →
      Gathered allocas (done ++ loops) c' from hall [] loops _ c (gathered_start allocas) hloops
  intro done loops
  induction loops generalizing done with
  | nil =>
    intro c c' hc hloops
    obtain rfl := Option.some.inj hloops
    rwa [List.append_nil]
  | cons L rest ih =>
    intro c c' hc hloops
    obtain ⟨c₁, hloop, hloops⟩ := Option.bind_eq_some_iff.mp hloops
    rw [List.append_cons]
    exact ih (done ++ [L]) c₁ c' (hc.collectLoop hloop) hloops

/-- After the loops a block has a loop exactly when it is recorded as a body. -/
theorem Gathered.isSome_getLoopIteratorFromLoopBody {allocas : List (Reg × AllocatedType)} {loops : List Loop}
    (hc : Gathered allocas loops c) {BB : Reg} :
    (c.getLoopIteratorFromLoopBody BB).isSome ↔ BB ∈ loops.flatMap (·.bodies) := by
  rw [← hc.bodies, getLoopIteratorFromLoopBody, Option.isSome_map, List.find?_isSome]
  simp only [List.contains_iff_mem, Prod.exists, ExtTreeMap.mem_toList_iff_getElem?_eq_some]

end Collector

end Octantis
