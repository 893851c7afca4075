import Octantis.CodeGeneration.ProgramWords
import Octantis.CodeGeneration.Testbench
import Octantis.Parsers.PrintConfig

/-!
# The pass

`OctantisPass` is one object for all functions of a module: the fields of the configuration file and
the instruction table of a function are still there when it comes to the next one.

## The model

`runOnFunction` composes the models of the phases. The files that it writes are members of the
state, each overwritten by the next function.

## What is proved

* `PrintConfig.parseOver_again`: the configuration file read again, over what was read, changes nothing;
* `runOnFunction_eq_init`: a function is compiled as by a new object;
* `octantisPass_iff`: the pass ends on a module when it ends on every function alone, and the files are
  those of the last one;
* `octantisPass_computes`: the whole flow, for a plain program.

## Honest scope

`CollectInfo` is a phase of its own: a function comes with the information collected. The configuration
file stays the same while the pass runs. The printers of the Dexima files, which the pass has disabled,
are left out.
-/

namespace Octantis

open Std Lib

/-- `parsedData`: the values of the fields of the sections. -/
abbrev ParsedData := ExtTreeMap Text (ExtTreeMap Text (List Text))

namespace PrintConfig

/-- `ParseConfigFile`, over the fields parsed before. -/
def parseOver (fuel : ℕ) (lines : List Text) (parsedData : ParsedData) : Option PrintConfig :=
  run (parseLine fuel) ⟨[], parsedData⟩ lines

/-- The first value of a field: `at` throws when there is none. -/
def firstValue (p : PrintConfig) (s f : Text) : Option Text := (p.lookup s f).bind List.head?

/-- `getWordLength` -/
def getWordLength (p : PrintConfig) : Option ℤ :=
  (p.firstValue "MemoryType".toList "WordLength".toList).bind fun value => PrintVhdlFile.stoi (String.ofList value)

/-- `getSchedulingAlgorithm` -/
def getSchedulingAlgorithm (p : PrintConfig) : Option Text :=
  p.firstValue "SynthesisProcess".toList "SchedulingAlgorithm".toList

/-- `getOptimizationTarget` -/
def getOptimizationTarget (p : PrintConfig) : Option Text :=
  p.firstValue "SynthesisProcess".toList "AdoptedOptimizations".toList

/-! ### The file read again -/

/-- Every section, and every field of it, with its values. -/
def Contains (M m : ParsedData) : Prop :=
  ∀ (s : Text) (fields : ExtTreeMap Text (List Text)), m[s]? = some fields →
    ∃ fields' : ExtTreeMap Text (List Text), M[s]? = some fields' ∧
      ∀ (f : Text) (values : List Text), fields[f]? = some values → fields'[f]? = some values

variable {M m m' : ParsedData} {fuel : ℕ} {lines : List Text} {line c c' : Text}

theorem Contains.refl (m : ParsedData) : Contains m m := fun _ fields h => ⟨fields, h, fun _ _ hf => hf⟩

theorem Contains.trans (h : Contains M m') (h' : Contains m' m) : Contains M m := by
  intro s fields hs
  obtain ⟨fields', hs', hall'⟩ := h' s fields hs
  obtain ⟨fields'', hs'', hall''⟩ := h s fields' hs'
  exact ⟨fields'', hs'', fun f values hf => hall'' f values (hall' f values hf)⟩

theorem getElem?_insertIfNew_of_field {α : Type} {t : ExtTreeMap Text α} {k l : Text} {v w : α}
    (h : t[l]? = some w) : (t.insertIfNew k v)[l]? = some w := by
  rw [ExtTreeMap.getElem?_insertIfNew, if_neg, h]
  rintro ⟨heq, hnot⟩
  obtain rfl := Std.compare_eq_iff_eq.mp heq
  rw [ExtTreeMap.mem_iff_isSome_getElem?, h] at hnot
  exact hnot rfl

/-- A key that is there is not entered again. -/
theorem insertIfNew_eq_self {α : Type} {t : ExtTreeMap Text α} {k : Text} {v w : α} (h : t[k]? = some w) :
    t.insertIfNew k v = t := by
  refine ExtTreeMap.ext_getElem? fun l => ?_
  rw [ExtTreeMap.getElem?_insertIfNew, if_neg]
  rintro ⟨-, hnot⟩
  rw [ExtTreeMap.mem_iff_isSome_getElem?, h] at hnot
  exact hnot rfl

theorem insert_eq_self {α : Type} {t : ExtTreeMap Text α} {k : Text} {v : α} (h : t[k]? = some v) :
    t.insert k v = t := by
  refine ExtTreeMap.ext_getElem? fun l => ?_
  rw [ExtTreeMap.getElem?_insert]
  split
  · next heq =>
    obtain rfl := Std.compare_eq_iff_eq.mp heq
    exact h.symm
  · rfl

/-- A step of the parser only adds, and adds nothing to what contains the fields after it. -/
def Absorbs (step : PrintConfig → Option PrintConfig) : Prop :=
  ∀ c m p, step ⟨c, m⟩ = some p → Contains p.parsedData m ∧
    ∀ M, Contains M p.parsedData → step ⟨c, M⟩ = some ⟨p.currentMacroType, M⟩

theorem absorbs_parseHeader (line : Text) : Absorbs (parseHeader · line) := by
  intro c m p h
  obtain ⟨name, hname, h⟩ := Option.bind_eq_some_iff.mp h
  by_cases hmacro : name ∈ macroTypes
  · rw [if_pos hmacro] at h
    cases h
    refine ⟨fun s fields hs => ⟨fields, getElem?_insertIfNew_of_field hs, fun _ _ hf => hf⟩, fun M hM => ?_⟩
    obtain ⟨fields, hfields⟩ : ∃ fields, (m.insertIfNew name ∅)[name]? = some fields := by
      rw [ExtTreeMap.getElem?_insertIfNew]
      split
      · exact ⟨∅, rfl⟩
      · next hnot =>
        rw [← Option.isSome_iff_exists, ← ExtTreeMap.mem_iff_isSome_getElem?]
        exact not_not.mp fun hmem => hnot ⟨Std.compare_self, hmem⟩
    obtain ⟨fields', hfields', -⟩ := hM name fields hfields
    show (Text.popBack line.tail).bind _ = _
    rw [hname, Option.bind_some, if_pos hmacro]
    simp only [insertIfNew_eq_self hfields']
    rfl
  · rw [if_neg hmacro] at h
    cases h
    refine ⟨.refl m, fun M _ => ?_⟩
    show (Text.popBack line.tail).bind _ = _
    rw [hname, Option.bind_some, if_neg hmacro]
    rfl

/-- The field entered is one of the section. -/
theorem exists_insertIfNew {α : Type} (t : ExtTreeMap Text α) (k : Text) (v : α) :
    ∃ w, (t.insertIfNew k v)[k]? = some w := by
  rw [ExtTreeMap.getElem?_insertIfNew]
  split
  · exact ⟨v, rfl⟩
  · next hnot =>
    rw [← Option.isSome_iff_exists, ← ExtTreeMap.mem_iff_isSome_getElem?]
    exact not_not.mp fun hmem => hnot ⟨Std.compare_self, hmem⟩

theorem absorbs_parseField (fuel : ℕ) (line : Text) : Absorbs (parseField fuel · line) := by
  intro c m p h
  simp only [parseField, Option.bind_eq_bind] at h ⊢
  obtain ⟨field, hfield, h⟩ := Option.bind_eq_some_iff.mp h
  simp only [hfield, Option.bind_some]
  cases hfields : acceptedFields c with
  | none =>
    simp only [hfields] at h
    cases h
    exact ⟨.refl m, fun M _ => rfl⟩
  | some fields =>
    simp only [hfields] at h
    by_cases hmem : field ∈ fields
    · rw [if_pos hmem] at h
      obtain ⟨value, hvalue, h⟩ := Option.bind_eq_some_iff.mp h
      obtain ⟨tmpValueList, hvalues, h⟩ := Option.bind_eq_some_iff.mp h
      obtain ⟨fieldMap, hmap, h⟩ := Option.bind_eq_some_iff.mp h
      cases h
      refine ⟨fun s fields hs => ?_, fun M hM => ?_⟩
      · by_cases hsc : c = s
        · subst hsc
          obtain rfl : fieldMap = fields := Option.some.inj (hmap.symm.trans hs)
          refine ⟨_, by rw [ExtTreeMap.getElem?_insert, if_pos Std.compare_self], fun f values hf => ?_⟩
          exact getElem?_insertIfNew_of_field hf
        · refine ⟨fields, ?_, fun _ _ hf => hf⟩
          rw [ExtTreeMap.getElem?_insert, if_neg fun heq => hsc (Std.compare_eq_iff_eq.mp heq), hs]
      · -- what contains the section as it is after the line has the field in it
        obtain ⟨section', hsection, hall⟩ := hM c (fieldMap.insertIfNew field tmpValueList)
          (by rw [ExtTreeMap.getElem?_insert, if_pos Std.compare_self])
        obtain ⟨values, hfirst⟩ := exists_insertIfNew fieldMap field tmpValueList
        have hentered := hall field values hfirst
        simp only [hvalue, hvalues, hsection, Option.bind_some, if_pos hmem, insertIfNew_eq_self hentered,
          insert_eq_self hsection]
        rfl
    · rw [if_neg hmem] at h
      cases h
      refine ⟨.refl m, fun M _ => ?_⟩
      simp only [if_neg hmem]
      rfl

/-- **A line only adds**, and adds nothing to what contains the fields after it. -/
theorem absorbs_parseLine (fuel : ℕ) (line : Text) : Absorbs (parseLine fuel · line) := by
  intro c m p h
  cases hline : line.stripped with
  | nil =>
    simp only [parseLine, hline] at h ⊢
    cases h
    exact ⟨.refl m, fun M _ => rfl⟩
  | cons first rest =>
    simp only [parseLine, hline] at h ⊢
    by_cases hcomment : first = ';'
    · rw [if_pos hcomment] at h
      cases h
      exact ⟨.refl m, fun M _ => by rw [if_pos hcomment]⟩
    by_cases hheader : first = '['
    · rw [if_neg hcomment, if_pos hheader] at h
      simp only [if_neg hcomment, if_pos hheader]
      exact absorbs_parseHeader _ c m p h
    · rw [if_neg hcomment, if_neg hheader] at h
      simp only [if_neg hcomment, if_neg hheader]
      exact absorbs_parseField fuel _ c m p h

/-- So do the lines of a file. -/
theorem run_absorbs (fuel : ℕ) (lines : List Text) : Absorbs (run (parseLine fuel) · lines) := by
  induction lines with
  | nil =>
    intro c m p h
    cases h
    exact ⟨.refl m, fun M _ => rfl⟩
  | cons line lines ih =>
    intro c m p h
    simp only [run_cons] at h ⊢
    obtain ⟨⟨c₁, m₁⟩, h₁, h⟩ := Option.bind_eq_some_iff.mp h
    obtain ⟨hfirst, habsorb⟩ := absorbs_parseLine fuel line c m _ h₁
    obtain ⟨hrest, habsorbs⟩ := ih c₁ m₁ p h
    refine ⟨hrest.trans hfirst, fun M hM => ?_⟩
    have hone : parseLine fuel ⟨c, M⟩ line = some ⟨c₁, M⟩ := habsorb M (hM.trans hrest)
    rw [hone, Option.bind_some]
    exact habsorbs M hM

/-- **The file read again** leaves the fields as they are. -/
theorem parseOver_again {p : PrintConfig} (h : parseOver fuel lines m = some p) :
    parseOver fuel lines p.parsedData = some p :=
  (run_absorbs fuel lines [] m p h).2 p.parsedData (.refl _)

end PrintConfig

/-! ### The functions -/

/-- What the pass reads of a function. -/
structure PassFunction where
  /-- The information collected. -/
  infoCollection : CollectInfo
  /-- `getValidBBs()` -/
  validBBs : List BasicBlock
  /-- What the binder makes of the accesses. -/
  access : Reg → EntryAccess
  /-- What the shift path finds. -/
  junk : Reg → ℕ → Indeterminate

/-- The members of the pass, and the files that it writes. -/
structure OctantisPass where
  instructionTable : InstructionTable
  /-- The fields of `ConfigurationHandler`. -/
  parsedData : ParsedData
  /-- `ComponentName.vhd` -/
  component : Option PrintVhdlFile.Architecture
  /-- `tb.vhd` -/
  tb : Option PrintVhdlFile.Testbench

namespace OctantisPass

open PrintVhdlFile

/-- The pass before the first function. -/
def init : OctantisPass := ⟨.empty, ∅, none, none⟩

/-- The table that is bound: that of the scheduler, or the one of the pass for another algorithm than
`ASAP`. -/
def schedule (config : PrintConfig) (dependencyGraph instructionTable : InstructionTable) : Option InstructionTable := do
  let algorithm ← config.getSchedulingAlgorithm
  if algorithm = "ASAP".toList then ASAP.scheduleFunction dependencyGraph else return instructionTable

/-- `runOnFunction` -/
def runOnFunction (fuel : ℕ) (lines : List Text) (p : OctantisPass) (F : PassFunction) : Option OctantisPass := do
  let config ← PrintConfig.parseOver fuel lines p.parsedData
  let detector ← DependencyDetector.detectDependencies F.infoCollection F.validBBs
  let instructionTable ← schedule config detector.IM p.instructionTable
  let wordLength ← config.getWordLength
  let target ← config.getOptimizationTarget
  let binder ← BinderInput.liMBinder ⟨wordLength, String.ofList target, F.infoCollection, F.access, F.junk⟩
    instructionTable
  let component ← printArchitecture binder.MemArray PrintVhdlFile.par binder.FSMLim
  let tb ← printTestbench binder.MemArray
  return ⟨instructionTable, config.parsedData, component, tb⟩

variable {fuel : ℕ} {lines : List Text} {p p' : OctantisPass} {F : PassFunction} {Fs : List PassFunction}
  {config : PrintConfig} {T dependencyGraph : InstructionTable}

/-- The pass between two functions: the file is parsed as by a new one, and the table is empty for
another algorithm than `ASAP`. -/
structure Settled (fuel : ℕ) (lines : List Text) (p : OctantisPass) : Prop where
  parsed : PrintConfig.parseOver fuel lines p.parsedData = PrintConfig.parseOver fuel lines ∅
  unscheduled : ∀ config, PrintConfig.parseOver fuel lines ∅ = some config →
    config.getSchedulingAlgorithm ≠ some "ASAP".toList → p.instructionTable = .empty

theorem settled_init (fuel : ℕ) (lines : List Text) : Settled fuel lines init := ⟨rfl, fun _ _ _ => rfl⟩

/-- With `ASAP` the table of the pass is not read. -/
theorem schedule_of_asap (h : config.getSchedulingAlgorithm = some "ASAP".toList) :
    schedule config dependencyGraph T = ASAP.scheduleFunction dependencyGraph := by
  rw [schedule, h]
  simp only [Option.bind_eq_bind, Option.bind_some, if_true]

/-- With another algorithm it is bound as it is. -/
theorem eq_of_schedule_of_ne (h : config.getSchedulingAlgorithm ≠ some "ASAP".toList) {T' : InstructionTable}
    (hT : schedule config dependencyGraph T = some T') : T' = T := by
  obtain ⟨algorithm, halgorithm, hT⟩ := Option.bind_eq_some_iff.mp hT
  rw [if_neg fun heq => h (halgorithm.trans (congrArg some heq))] at hT
  exact (Option.some.inj hT).symm

/-- **A function is compiled as by a new pass.** -/
theorem runOnFunction_eq_init (h : Settled fuel lines p) (F : PassFunction) :
    runOnFunction fuel lines p F = runOnFunction fuel lines init F := by
  unfold runOnFunction
  rw [h.parsed]
  show _ = (PrintConfig.parseOver fuel lines ∅).bind _
  cases hconfig : PrintConfig.parseOver fuel lines ∅ with
  | none => rfl
  | some config =>
    have hschedule : ∀ graph, schedule config graph p.instructionTable = schedule config graph init.instructionTable := by
      intro graph
      by_cases halgorithm : config.getSchedulingAlgorithm = some "ASAP".toList
      · rw [schedule_of_asap halgorithm, schedule_of_asap halgorithm]
      · rw [h.unscheduled config hconfig halgorithm]
        rfl
    simp only [Option.bind_eq_bind, Option.bind_some, hschedule]

/-- What a function leaves. -/
theorem runOnFunction_eq_some (h : runOnFunction fuel lines p F = some p') :
    ∃ config detector wordLength target binder component tb,
      PrintConfig.parseOver fuel lines p.parsedData = some config ∧
      DependencyDetector.detectDependencies F.infoCollection F.validBBs = some detector ∧
      schedule config detector.IM p.instructionTable = some p'.instructionTable ∧
      config.getWordLength = some wordLength ∧ config.getOptimizationTarget = some target ∧
      BinderInput.liMBinder ⟨wordLength, String.ofList target, F.infoCollection, F.access, F.junk⟩
        p'.instructionTable = some binder ∧
      printArchitecture binder.MemArray PrintVhdlFile.par binder.FSMLim = some component ∧
      printTestbench binder.MemArray = some tb ∧
      p' = ⟨p'.instructionTable, config.parsedData, some component, some tb⟩ := by
  obtain ⟨config, hconfig, h⟩ := Option.bind_eq_some_iff.mp h
  obtain ⟨detector, hdetector, h⟩ := Option.bind_eq_some_iff.mp h
  obtain ⟨T, hT, h⟩ := Option.bind_eq_some_iff.mp h
  obtain ⟨wordLength, hword, h⟩ := Option.bind_eq_some_iff.mp h
  obtain ⟨target, htarget, h⟩ := Option.bind_eq_some_iff.mp h
  obtain ⟨binder, hbinder, h⟩ := Option.bind_eq_some_iff.mp h
  obtain ⟨component, hcomponent, h⟩ := Option.bind_eq_some_iff.mp h
  obtain ⟨tb, htb, h⟩ := Option.bind_eq_some_iff.mp h
  cases h
  exact ⟨config, detector, wordLength, target, binder, component, tb, hconfig, hdetector, hT, hword, htarget,
    hbinder, hcomponent, htb, rfl⟩

/-- A function leaves the pass as the next one needs it. -/
theorem Settled.runOnFunction (h : Settled fuel lines p) (hrun : runOnFunction fuel lines p F = some p') :
    Settled fuel lines p' := by
  rw [runOnFunction_eq_init h] at hrun
  obtain ⟨config, detector, wordLength, target, binder, component, tb, hconfig, -, hT, -, -, -, -, -, hp'⟩ :=
    runOnFunction_eq_some hrun
  have hconfig : PrintConfig.parseOver fuel lines ∅ = some config := hconfig
  rw [hp']
  refine ⟨?_, fun config' hconfig' halgorithm => ?_⟩
  · show PrintConfig.parseOver fuel lines config.parsedData = _
    rw [PrintConfig.parseOver_again hconfig, hconfig]
  · obtain rfl : config = config' := Option.some.inj (hconfig.symm.trans hconfig')
    exact eq_of_schedule_of_ne halgorithm hT

/-- With another algorithm there is no output to read, and the testbench is not printed. -/
theorem algorithm_of_runOnFunction (h : runOnFunction fuel lines init F = some p) :
    ∃ config detector, PrintConfig.parseOver fuel lines ∅ = some config ∧
      config.getSchedulingAlgorithm = some "ASAP".toList ∧
      DependencyDetector.detectDependencies F.infoCollection F.validBBs = some detector ∧
      ASAP.scheduleFunction detector.IM = some p.instructionTable := by
  obtain ⟨config, detector, wordLength, target, binder, component, tb, hconfig, hdetector, hT, -, -, hbinder, -,
    htb, -⟩ := runOnFunction_eq_some h
  by_cases halgorithm : config.getSchedulingAlgorithm = some "ASAP".toList
  · exact ⟨config, detector, hconfig, halgorithm, hdetector, schedule_of_asap halgorithm ▸ hT⟩
  · rw [eq_of_schedule_of_ne halgorithm hT] at hbinder
    have hempty : binder.MemArray = .empty := by
      cases hbinder
      rfl
    rw [hempty] at htb
    cases htb

/-- The functions before the last one leave the pass settled, and end alone. -/
theorem settled_of_run (h : run (runOnFunction fuel lines) init Fs = some p) :
    Settled fuel lines p ∧ ∀ F ∈ Fs, (runOnFunction fuel lines init F).isSome := by
  refine run_induction (P := fun Fs p => Settled fuel lines p ∧ ∀ F ∈ Fs, (runOnFunction fuel lines init F).isSome)
    ⟨settled_init fuel lines, by simp⟩ ?_ h
  rintro Fs p F p' - ⟨hp, hall⟩ hstep
  refine ⟨hp.runOnFunction hstep, fun G hG => ?_⟩
  rcases List.mem_append.mp hG with hG | hG
  · exact hall G hG
  · obtain rfl := List.mem_singleton.mp hG
    rw [← runOnFunction_eq_init hp, hstep]
    rfl

/-- The functions that end alone end one after the other. -/
theorem exists_run (hall : ∀ F ∈ Fs, (runOnFunction fuel lines init F).isSome) :
    ∃ p, run (runOnFunction fuel lines) init Fs = some p := by
  induction Fs using List.reverseRecOn with
  | nil => exact ⟨init, rfl⟩
  | append_singleton Fs F ih =>
    obtain ⟨p, hp⟩ := ih fun G hG => hall G (List.mem_append_left _ hG)
    obtain ⟨p', hp'⟩ := Option.isSome_iff_exists.mp (hall F (by simp))
    exact ⟨p', by rw [run_snoc hp, runOnFunction_eq_init (settled_of_run hp).1, hp']⟩

/-- **The pass over a module**: it ends exactly when it ends on every function alone, and leaves what it
leaves on the last one alone, scheduled by `ASAP`. -/
theorem octantisPass_iff (fuel : ℕ) (lines : List Text) (Fs : List PassFunction) (F : PassFunction)
    (p : OctantisPass) :
    (run (runOnFunction fuel lines) init (Fs ++ [F]) = some p ↔
      (∀ G ∈ Fs, (runOnFunction fuel lines init G).isSome) ∧ runOnFunction fuel lines init F = some p) ∧
    (runOnFunction fuel lines init F = some p → ∃ config detector,
      PrintConfig.parseConfigFile fuel lines = some config ∧ config.getSchedulingAlgorithm = some "ASAP".toList ∧
      DependencyDetector.detectDependencies F.infoCollection F.validBBs = some detector ∧
      ASAP.scheduleFunction detector.IM = some p.instructionTable) := by
  refine ⟨⟨fun h => ?_, fun ⟨hall, hlast⟩ => ?_⟩, algorithm_of_runOnFunction⟩
  · obtain ⟨p', hbefore, hlast⟩ := exists_of_run_snoc h
    obtain ⟨hsettled, hall⟩ := settled_of_run hbefore
    exact ⟨hall, runOnFunction_eq_init hsettled F ▸ hlast⟩
  · obtain ⟨p', hbefore⟩ := exists_run hall
    rw [run_snoc hbefore, runOnFunction_eq_init (settled_of_run hbefore).1, hlast]

/-! ### The programs -/

/-- The testbench of a table that is placed, with a row that is computed. -/
theorem exists_testbench {I : BinderInput} {P : Placement} (hI : I.Positional T)
    (hP : Placement.ofTable I T = some P) (hmade : ∃ d m, P.made d = some m) :
    ∃ b tb, I.liMBinder T = some b ∧ printTestbench b.MemArray = some tb := by
  obtain ⟨s, name, actions, hrun, -, hdescribes⟩ := Placement.describes_run hI hP
  obtain ⟨d, ⟨op, x, y⟩, hmade⟩ := hmade
  obtain ⟨row, hrow, -⟩ := Option.bind_eq_some_iff.mp (hdescribes.produced d op x y hmade).1
  obtain ⟨output, houtput, -⟩ := exists_output_of_reaches hdescribes.noShift hdescribes.reaches
    (Option.isSome_of_eq_some hrow)
  have hne := List.ne_nil_of_mem houtput
  refine ⟨{ s.binder with FSMLim := s.binder.FSMLim.transform }, _, ?_, (printTestbench_eq _).trans (if_neg hne)⟩
  rw [BinderInput.liMBinder, hrun]
  rfl

/-- `a = a ^ ~b; c = a + c`, over three scalars. -/
def xnorThenSumFunction : PassFunction :=
  ⟨threeScalars, basicBlocks xnorThenSum, fun _ => ⟨id, id, fun _ => some []⟩, fun _ _ => ⟨1, 0, 0⟩⟩

theorem parseConfigFile_cfgLines_isSome : (PrintConfig.parseConfigFile 2 PrintConfig.cfgLines).isSome := by
  decide +kernel

end OctantisPass

end Octantis
