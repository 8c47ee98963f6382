import CLite.Model.Crt0

/-! # What `main` is called with

Whatever the kernel leaves on the stack, `_start` calls `main` with three arguments, sets `environ` to the third,
and hands what `main` returns to `exit`.
-/

namespace CLite.Crt0

open Machine32

/-- A routine has been called with these arguments: they stand above the return address. -/
def CalledWith (data : Data) (resume : Word) (arguments : List Word) : Prop :=
  Words data.memory (data.register .esp).toNat (resume :: arguments)

/-- The arguments of `main` for an initial stack: the count on top of it and the vectors above that, or the
defaults when the count is not positive. -/
def mainArguments (symbols : Symbols) (data : Data) : List Word :=
  let argc := load data.memory (data.register .esp)
  if 0 < argc.toInt then [argc, data.register .esp + 4, data.register .esp + argc * 4 + 8]
  else [1, symbols.defaultArgv, symbols.defaultEnvp]

variable {symbols : Symbols} {code : Code} {place : ℕ → Word} {data : Data}

theorem lessOrEqual_test (word : Word) : (word == 0 || word.msb != false) = decide (word.toInt ≤ 0) := by
  rw [Bool.eq_iff_iff, Bool.or_eq_true, beq_iff_eq, bne_iff_ne, decide_eq_true_iff, ne_eq, Bool.not_eq_false,
    BitVec.msb_eq_toInt, decide_eq_true_iff, ← BitVec.toInt_inj]
  simp
  omega

/-- The machine once the count of arguments has been read and tested. -/
structure Counted (data ready : Data) : Prop where
  eax : ready.register .eax = load data.memory (data.register .esp)
  ebp : ready.register .ebp = 0
  esp : ready.register .esp = data.register .esp
  memory : ready.memory = data.memory

theorem start_counts (loaded : Loaded code place (start symbols place)) (data : Data) :
    ∃ ready, Counted data ready ∧ Reaches code ⟨data, place 0⟩
      ⟨ready, if 0 < (load data.memory (data.register .esp)).toInt then place 4 else place noArgs⟩ := by
  have counted := loaded.block 0 startArgc ⟨_, rfl⟩ data
  have branch := loaded.transfer 3 rfl (startArgc.foldl Operation.exec data) rfl
  have tested : Condition.lessOrEqual.holds (startArgc.foldl Operation.exec data) =
      decide ((load data.memory (data.register .esp)).toInt ≤ 0) := by
    rw [← lessOrEqual_test]
    simp [startArgc, loadFrom]
  have swap : (if 0 < (load data.memory (data.register .esp)).toInt then place 4 else place noArgs) =
      if Condition.lessOrEqual.holds (startArgc.foldl Operation.exec data) = true then place noArgs
      else place (3 + 1) := by
    simp only [tested, decide_eq_true_eq, ← not_lt, ite_not]
  rw [swap]
  refine ⟨_, ?_, counted.trans branch⟩
  constructor <;> simp [startArgc, loadFrom]

/-- Both ways to `main` set `environ` and push the three arguments. -/
def passArguments (symbols : Symbols) (data : Data) (argc argv envp : Word) : Data :=
  (((data.store symbols.environ envp).push envp).push argv).push argc

theorem startPassed_exec (data : Data) : (startPassed symbols).foldl Operation.exec data =
    passArguments symbols ((data.set .edx (data.register .esp + 4)).set .ecx
      (data.register .esp + data.register .eax * 4 + 8)) (data.register .eax) (data.register .esp + 4)
      (data.register .esp + data.register .eax * 4 + 8) := by
  simp [startPassed, passArguments]

theorem startDefault_exec (data : Data) : (startDefault symbols).foldl Operation.exec data =
    passArguments symbols data 1 symbols.defaultArgv symbols.defaultEnvp := by
  simp [startDefault, passArguments]

section Entry

variable {argc argv envp resume : Word} (room : 16 ≤ (data.register .esp).toNat)
include room

theorem calledWith_passArguments :
    CalledWith ((passArguments symbols data argc argv envp).push resume) resume [argc, argv, envp] := by
  have none : Words (data.store symbols.environ envp).memory
      ((data.store symbols.environ envp).register .esp).toNat [] := by
    intro i word found
    cases found
  simp only [CalledWith, passArguments]
  apply words_push
  · rw [push_register_esp, push_register_esp, push_register_esp, store_register]
    bv_omega
  apply words_push
  · rw [push_register_esp, push_register_esp, store_register]
    bv_omega
  apply words_push
  · rw [push_register_esp, store_register]
    bv_omega
  apply words_push _ none
  rw [store_register]
  omega

theorem passArguments_memory {query : ℕ}
    (stack : query + 16 < (data.register .esp).toNat ∨ (data.register .esp).toNat ≤ query) :
    ((passArguments symbols data argc argv envp).push resume).memory query =
      store data.memory symbols.environ envp query := by
  simp only [passArguments]
  rw [push_memory_outside, push_memory_outside, push_memory_outside, push_memory_outside]
  · rfl
  all_goals
    simp only [push_register_esp, store_register]
    bv_omega

theorem passArguments_environ
    (apart : symbols.environ.toNat + 20 ≤ (data.register .esp).toNat ∨
      (data.register .esp).toNat ≤ symbols.environ.toNat) :
    load ((passArguments symbols data argc argv envp).push resume).memory symbols.environ = envp := by
  apply Eq.trans _ (load_store_same data.memory symbols.environ envp)
  apply load_congr
  intro query lower upper
  exact passArguments_memory room (by omega)

end Entry

/-- How `main` is entered: its arguments above the return address, and `environ` set to the last one. -/
structure Entered (symbols : Symbols) (data entry : Data) (resume argc argv envp : Word) : Prop where
  called : CalledWith entry resume [argc, argv, envp]
  environ : load entry.memory symbols.environ = envp
  frame : entry.register .ebp = 0
  outside : ∀ query, query + 16 < (data.register .esp).toNat ∨ (data.register .esp).toNat ≤ query →
    query < symbols.environ.toNat ∨ symbols.environ.toNat + 4 ≤ query → entry.memory query = data.memory query

section Start

variable (room : 16 ≤ (data.register .esp).toNat)
    (apart : symbols.environ.toNat + 20 ≤ (data.register .esp).toNat ∨
      (data.register .esp).toNat ≤ symbols.environ.toNat)
include room apart

theorem Counted.entered {ready : Data} (counted : Counted data ready) (resume argc argv envp : Word) :
    Entered symbols data ((passArguments symbols ready argc argv envp).push resume) resume argc argv envp := by
  rw [← counted.esp] at room apart
  refine ⟨calledWith_passArguments room, passArguments_environ room apart, ?_, ?_⟩
  · simp [passArguments, counted.ebp]
  · intro query stack outside
    rw [← counted.esp] at stack
    rw [passArguments_memory room stack, store_outside outside, counted.memory]

theorem start_enters (loaded : Loaded code place (start symbols place)) :
    ∃ entry resume argc argv envp, Reaches code ⟨data, place 0⟩ ⟨entry, symbols.main⟩ ∧
      Entered symbols data entry resume argc argv envp ∧ mainArguments symbols data = [argc, argv, envp] ∧
      ∀ final, Reaches code ⟨final, resume⟩ ⟨final, place done⟩ := by
  obtain ⟨ready, counted, ran⟩ := start_counts loaded data
  by_cases positive : 0 < (load data.memory (data.register .esp)).toInt
  · rw [if_pos positive] at ran
    have passed := loaded.block 4 (startPassed symbols) ⟨_, rfl⟩ ready
    rw [startPassed_exec, counted.eax, counted.esp] at passed
    have still : Counted data ((ready.set .edx (data.register .esp + 4)).set .ecx
        (data.register .esp + load data.memory (data.register .esp) * 4 + 8)) := by
      constructor <;> simp [counted.eax, counted.ebp, counted.esp, counted.memory]
    refine ⟨_, place 11, load data.memory (data.register .esp), data.register .esp + 4,
      data.register .esp + load data.memory (data.register .esp) * 4 + 8,
      ran.trans (passed.trans (loaded.transfer 10 rfl _ rfl)), still.entered room apart _ _ _ _, ?_, ?_⟩
    · rw [mainArguments, if_pos positive]
    · exact fun final => loaded.transfer 11 rfl final rfl
  · rw [if_neg positive] at ran
    have passed := loaded.block noArgs (startDefault symbols) ⟨_, rfl⟩ ready
    rw [startDefault_exec] at passed
    refine ⟨_, place done, 1, symbols.defaultArgv, symbols.defaultEnvp,
      ran.trans (passed.trans (loaded.transfer 16 rfl _ rfl)), counted.entered room apart _ _ _ _, ?_, ?_⟩
    · rw [mainArguments, if_neg positive]
    · exact fun final => Relation.ReflTransGen.refl

end Start

/-- From `.done` on, the result of `main` becomes the argument of `exit`. -/
theorem start_exits (loaded : Loaded code place (start symbols place)) {final : Data}
    (room : 8 ≤ (final.register .esp).toNat) :
    ∃ leaving, Reaches code ⟨final, place done⟩ ⟨leaving, symbols.exit⟩ ∧
      CalledWith leaving (place halt) [final.register .eax] := by
  have pushed := loaded.operation done rfl final
  have none : Words final.memory (final.register .esp).toNat [] := by
    intro i word found
    cases found
  refine ⟨_, pushed.trans (loaded.transfer 18 rfl _ rfl), ?_⟩
  apply words_push
  · rw [Operation.exec, push_register_esp]
    bv_omega
  · exact words_push (by omega) none

/-- The stack as the kernel builds it: the count, the argument vector and the environment, each vector with a
null pointer at its end. -/
def InitialStack (data : Data) (argv envp : List Word) : Prop :=
  Words data.memory (data.register .esp).toNat
    (BitVec.ofNat 32 argv.length :: (argv ++ [0]) ++ (envp ++ [0]))

section Vectors

variable {arguments environment : List Word} (stack : InitialStack data arguments environment)
include stack

theorem mainArguments_of_initialStack (nonempty : arguments ≠ [])
    (top : (data.register .esp).toNat + 4 * (arguments.length + environment.length + 3) ≤ 2 ^ 32) :
    mainArguments symbols data =
      [BitVec.ofNat 32 arguments.length, BitVec.ofNat 32 ((data.register .esp).toNat + 4),
        BitVec.ofNat 32 ((data.register .esp).toNat + 4 * (arguments.length + 2))] := by
  have count : load data.memory (data.register .esp) = BitVec.ofNat 32 arguments.length :=
    stack.load (i := 0) rfl rfl
  have length := List.length_pos_iff.mpr nonempty
  have positive : 0 < (BitVec.ofNat 32 arguments.length).toInt := by
    rw [BitVec.toInt_eq_toNat_of_lt] <;> rw [BitVec.toNat_ofNat] <;> omega
  have argv : data.register .esp + 4 = BitVec.ofNat 32 ((data.register .esp).toNat + 4) := by bv_omega
  have envp : data.register .esp + BitVec.ofNat 32 arguments.length * 4 + 8 =
      BitVec.ofNat 32 ((data.register .esp).toNat + 4 * (arguments.length + 2)) := by
    apply BitVec.eq_of_toNat_eq
    simp only [BitVec.toNat_add, BitVec.toNat_mul, BitVec.toNat_ofNat, show (4 : Word).toNat = 4 from rfl,
      show (8 : Word).toNat = 8 from rfl]
    omega
  rw [mainArguments, count, if_pos positive, argv, envp]

/-- Both vectors are where the arguments point, also after memory below the stack and elsewhere has changed. -/
theorem words_of_initialStack (memory : ByteMemory.Memory)
    (kept : ∀ query, (data.register .esp).toNat ≤ query →
      query < (data.register .esp).toNat + 4 * (arguments.length + environment.length + 3) →
      data.memory query = memory query) :
    Words memory ((data.register .esp).toNat + 4) (arguments ++ [0]) ∧
      Words memory ((data.register .esp).toNat + 4 * (arguments.length + 2)) (environment ++ [0]) := by
  have whole : Words memory (data.register .esp).toNat
      ([BitVec.ofNat 32 arguments.length] ++ (arguments ++ [0]) ++ (environment ++ [0])) := by
    apply stack.congr
    intro query lower upper
    apply kept query lower
    simp only [List.length_append, List.length_cons, List.length_nil] at upper
    omega
  refine ⟨whole.append_left.append_right, ?_⟩
  have second := whole.append_right
  rwa [List.length_append, List.length_append, List.length_cons, List.length_nil, List.length_cons,
    List.length_nil, show 0 + 1 + (arguments.length + (0 + 1)) = arguments.length + 2 by omega] at second

end Vectors

/-- Whatever stands on the stack, `_start` calls `main` with the count and the two vectors it finds there, or
with the defaults when the count is not positive; `environ` is the environment `main` gets, and memory apart
from `environ` and the words pushed is as before. If the kernel left both vectors, they are where the
arguments point. When `main` comes back, `exit` is called with its result. -/
theorem start_calls_main_and_exit (symbols : Symbols) (code : Code) (place : ℕ → Word) (data : Data)
    (loaded : Loaded code place (start symbols place)) (room : 16 ≤ (data.register .esp).toNat)
    (apart : symbols.environ.toNat + 20 ≤ (data.register .esp).toNat ∨
      (data.register .esp).toNat ≤ symbols.environ.toNat) :
    ∃ entry resume argc argv envp, Reaches code ⟨data, place 0⟩ ⟨entry, symbols.main⟩ ∧
      mainArguments symbols data = [argc, argv, envp] ∧ Entered symbols data entry resume argc argv envp ∧
      (∀ arguments environment : List Word, arguments ≠ [] → InitialStack data arguments environment →
        (data.register .esp).toNat + 4 * (arguments.length + environment.length + 3) ≤ 2 ^ 32 →
        (symbols.environ.toNat + 4 ≤ (data.register .esp).toNat ∨
          (data.register .esp).toNat + 4 * (arguments.length + environment.length + 3) ≤
            symbols.environ.toNat) →
        argc.toNat = arguments.length ∧ Words entry.memory argv.toNat (arguments ++ [0]) ∧
          Words entry.memory envp.toNat (environment ++ [0])) ∧
      ∀ final : Data, 8 ≤ (final.register .esp).toNat →
        ∃ leaving, Reaches code ⟨final, resume⟩ ⟨leaving, symbols.exit⟩ ∧
          CalledWith leaving (place halt) [final.register .eax] := by
  obtain ⟨entry, resume, argc, argv, envp, ran, entered, same, returns⟩ := start_enters room apart loaded
  refine ⟨entry, resume, argc, argv, envp, ran, same, entered, ?_, ?_⟩
  · intro arguments environment nonempty stack top separate
    rw [mainArguments_of_initialStack stack nonempty top] at same
    injection same with count rest
    injection rest with first rest
    injection rest with second _
    have kept := words_of_initialStack stack entry.memory fun query lower upper =>
      (entered.outside query (Or.inr lower) (by omega)).symm
    rw [← count, ← first, ← second, BitVec.toNat_ofNat, BitVec.toNat_ofNat, BitVec.toNat_ofNat,
      Nat.mod_eq_of_lt, Nat.mod_eq_of_lt, Nat.mod_eq_of_lt]
    · exact ⟨rfl, kept⟩
    all_goals omega
  · intro final space
    obtain ⟨leaving, left, called⟩ := start_exits loaded space
    exact ⟨leaving, (returns final).trans left, called⟩

/-- `main` at `0x500`, `exit` at `0x600`, and the data of `crt0.asm` from `0x700` on. -/
def sampleSymbols : Symbols := ⟨0x500, 0x600, 0x700, 0x710, 0x718⟩

/-- A stack at `0x3000` with one argument and an empty environment. -/
def sampleStack : Data where
  register := fun _ => 0x3000
  zero := false
  sign := false
  overflow := false
  memory := store (store (fun _ => 0) 0x3000 1) 0x3004 0x4000

theorem start_calls_main_and_exit_sample :
    ∃ entry resume argc argv envp,
      Reaches (linear 0 (start sampleSymbols fun i => BitVec.ofNat 32 (0 + i))) ⟨sampleStack, 0⟩
        ⟨entry, 0x500⟩ ∧
      CalledWith entry resume [argc, argv, envp] ∧ argc = 1 ∧ Words entry.memory argv.toNat [0x4000, 0] ∧
      Words entry.memory envp.toNat [0] := by
  obtain ⟨entry, resume, argc, argv, envp, ran, same, entered, vectors, -⟩ := start_calls_main_and_exit
    sampleSymbols _ _ sampleStack (loaded_linear 0 (start sampleSymbols fun i => BitVec.ofNat 32 (0 + i))
      (by decide)) (by decide) (by decide)
  have stack : InitialStack sampleStack [0x4000] [] := by
    intro i word found
    match i, found with
    | 0, found => cases found; decide
    | 1, found => cases found; decide
    | 2, found => cases found; decide
    | 3, found => cases found; decide
  obtain ⟨-, first, second⟩ := vectors [0x4000] [] (by decide) stack (by decide) (by decide)
  have one : mainArguments sampleSymbols sampleStack = [1, 0x3004, 0x300c] := by decide
  rw [one] at same
  injection same with count _
  exact ⟨entry, resume, argc, argv, envp, ran, entered.called, count.symm, first, second⟩

end CLite.Crt0
