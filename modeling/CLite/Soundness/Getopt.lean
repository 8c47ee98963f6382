import CLite.Model.Getopt

/-! # Decoding a command line

An option string lists option characters, each with a colon behind it if the option has an argument. A
list of options can be rendered in many ways: flags alone or in clusters, arguments attached or as the next
word. Successive calls of `getopt` return the options that were rendered and then stop at the operands.
-/

namespace CLite

/-- An option string by its parts: the option characters, and whether each has an argument. -/
structure OptSpec where
  leading : Bool
  options : List (CChar × Bool)
  alnum : ∀ option ∈ options, isAlnum option.1 = true
  distinct : (options.map Prod.fst).Nodup

def optionsText (options : List (CChar × Bool)) : CString :=
  options.flatMap fun option => option.1 :: if option.2 then [chr ':'] else []

def OptSpec.text (spec : OptSpec) : CString :=
  (if spec.leading then [chr ':'] else []) ++ optionsText spec.options

/-- An option of a command line. -/
structure Opt where
  char : CChar
  arg : Option CString

/-- One word of options without its dash, and the argument in the next word if there is one. -/
inductive Cluster (spec : OptSpec) : List Opt → CString → List CString → Prop where
  | flag {c} (known : (c, false) ∈ spec.options) : Cluster spec [⟨c, none⟩] [c] []
  | flags {c opts cs extra} (known : (c, false) ∈ spec.options) (more : Cluster spec opts cs extra) :
      Cluster spec (⟨c, none⟩ :: opts) (c :: cs) extra
  | attached {c arg} (known : (c, true) ∈ spec.options) (nonempty : arg ≠ []) :
      Cluster spec [⟨c, some arg⟩] (c :: arg) []
  | separate {c arg} (known : (c, true) ∈ spec.options) : Cluster spec [⟨c, some arg⟩] [c] [arg]

/-- The words of a list of options. -/
inductive Rendering (spec : OptSpec) : List Opt → List CString → Prop where
  | nil : Rendering spec [] []
  | cons {opts cs extra later words} (cluster : Cluster spec opts cs extra)
      (more : Rendering spec later words) :
      Rendering spec (opts ++ later) ((chr '-' :: cs) :: (extra ++ words))

/-- What follows the options: a double dash and any operands, or operands that are not taken for options. -/
inductive Ending : List CString → List CString → Prop where
  | dashes (operands) : Ending ([chr '-', chr '-'] :: operands) operands
  | none : Ending [] []
  | operand {first operands} (plain : first = [chr '-'] ∨ first.head? ≠ some (chr '-')) :
      Ending (first :: operands) (first :: operands)

variable {spec : OptSpec} {argv : List CString}

theorem alnum_ne {c : CChar} (alnum : isAlnum c = true) : c ≠ chr ':' ∧ c ≠ chr '-' := by
  refine ⟨?_, ?_⟩ <;> rintro rfl <;> revert alnum <;> decide

theorem dropWhile_colon (colon : Bool) {c : CChar} (other : c ≠ chr ':') (text : CString) :
    ((if colon then [chr ':'] else []) ++ text).dropWhile (· ≠ c) = text.dropWhile (· ≠ c) := by
  cases colon with
  | true => exact List.dropWhile_cons_of_pos (decide_eq_true other.symm)
  | false => rfl

/-- Behind an option character stands a colon exactly if the option has an argument. -/
theorem optionsText_find {options : List (CChar × Bool)} (alnum : ∀ option ∈ options, isAlnum option.1 = true)
    (distinct : (options.map Prod.fst).Nodup) {c : CChar} {takes : Bool} (known : (c, takes) ∈ options) :
    ∃ after, (optionsText options).dropWhile (· ≠ c) = c :: after ∧
      (after.head? = some (chr ':') ↔ takes = true) := by
  induction options with
  | nil => simp at known
  | cons option options ih =>
    rw [List.forall_mem_cons] at alnum
    rw [List.map_cons, List.nodup_cons] at distinct
    have cons : optionsText (option :: options) =
        option.1 :: ((if option.2 then [chr ':'] else []) ++ optionsText options) := rfl
    rcases List.mem_cons.mp known with rfl | later
    · refine ⟨_, by rw [cons]; exact List.dropWhile_cons_of_neg (by simp), ?_⟩
      cases takes with
      | true => simp
      | false =>
        cases options with
        | nil => simp [optionsText]
        | cons next options =>
          have other := (alnum_ne (alnum.2 next List.mem_cons_self)).1
          simp [optionsText, other]
    · have differs : option.1 ≠ c := by
        rintro rfl
        exact distinct.1 (List.mem_map.mpr ⟨_, later, rfl⟩)
      obtain ⟨after, found, shape⟩ := ih alnum.2 distinct.2 later
      refine ⟨after, ?_, shape⟩
      rw [cons, List.dropWhile_cons_of_pos (by simpa using differs),
        dropWhile_colon _ (alnum_ne (alnum.2 _ later)).1, found]

theorem OptSpec.find {c : CChar} {takes : Bool} (known : (c, takes) ∈ spec.options) :
    ∃ after, spec.text.dropWhile (· ≠ c) = c :: after ∧ (after.head? = some (chr ':') ↔ takes = true) := by
  obtain ⟨after, found, shape⟩ := optionsText_find spec.alnum spec.distinct known
  refine ⟨after, ?_, shape⟩
  rw [OptSpec.text, dropWhile_colon _ (alnum_ne (spec.alnum _ known)).1, found]

/-- The position in a word of options: what was read of it, what is left, and the words behind it. -/
structure InWord (argv : List CString) (st : OptState) (read left : CString) (behind : List CString) : Prop where
  started : 0 < st.optind
  words : argv.drop st.optind.toNat = (chr '-' :: (read ++ left)) :: behind
  position : st.optpos = read.length + 1
  notDashes : (read ++ left).head? ≠ some (chr '-')

/-- A call inside a word of options takes the next option. -/
theorem getopt_inWord {st : OptState} {read rest : CString} {behind : List CString} {c : CChar} {takes : Bool}
    (inWord : InWord argv st read (c :: rest) behind) (known : (c, takes) ∈ spec.options) :
    ∃ p, (p.head? = some (chr ':') ↔ takes = true) ∧
      getopt argv spec.text st = some (takeOption argv spec.text st c rest p) := by
  obtain ⟨started, words, position, notDashes⟩ := inWord
  obtain ⟨p, found, shape⟩ := spec.find known
  have colon := (alnum_ne (spec.alnum _ known)).1
  have word : argv[st.optind.toNat]? = some (chr '-' :: (read ++ c :: rest)) := by
    rw [← List.head?_drop, words, List.head?_cons]
  have left : (chr '-' :: (read ++ c :: rest)).drop st.optpos = c :: rest := by
    rw [position, List.drop_succ_cons, List.drop_left]
  have notDouble : chr '-' :: (read ++ c :: rest) ≠ [chr '-', chr '-'] := by
    intro same
    simp only [List.cons.injEq, true_and] at same
    rw [same] at notDashes
    exact notDashes rfl
  refine ⟨p, shape, ?_⟩
  unfold getopt
  rw [if_neg (by omega)]
  dsimp only
  rw [word]
  dsimp only
  rw [if_neg (by simp), if_neg notDouble, left]
  dsimp only
  rw [found]
  dsimp only
  rw [if_neg colon]

/-- The position before a word: the words from there on, up to the end of the command line. -/
structure AtWord (argv : List CString) (st : OptState) (words : List CString) : Prop where
  started : 0 < st.optind
  shape : argv.drop st.optind.toNat = words
  total : st.optind + words.length = argv.length
  position : st.optpos = 1

/-- Behind the word, and behind the argument that follows it. -/
theorem InWord.skip {st next : OptState} {read left : CString} {extra behind : List CString}
    (inWord : InWord argv st read left (extra ++ behind)) (moved : next.optind = st.optind + (extra.length + 1))
    (position : next.optpos = 1) : AtWord argv next behind := by
  obtain ⟨started, words, -, -⟩ := inWord
  have length := congrArg List.length words
  simp only [List.length_drop, List.length_cons, List.length_append] at length
  refine ⟨by omega, ?_, by omega, position⟩
  rw [show next.optind.toNat = st.optind.toNat + (extra.length + 1) by omega, ← List.drop_drop, words,
    List.drop_succ_cons, List.drop_left]

theorem getopts_succ {optstring : CString} {st next last : OptState} {c : ℤ} {calls : ℕ}
    {later : List (ℤ × Option CString)} (first : getopt argv optstring st = some (c, next))
    (rest : getopts argv optstring calls next = some (later, last)) :
    getopts argv optstring (calls + 1) st = some ((c, next.optarg) :: later, last) := by
  simp [getopts, first, rest]

theorem getopts_add {optstring : CString} {st middle last : OptState} {calls more : ℕ}
    {earlier later : List (ℤ × Option CString)} (first : getopts argv optstring calls st = some (earlier, middle))
    (second : getopts argv optstring more middle = some (later, last)) :
    getopts argv optstring (calls + more) st = some (earlier ++ later, last) := by
  induction calls generalizing st earlier with
  | zero =>
    cases first
    rw [Nat.zero_add]
    exact second
  | succ calls ih =>
    simp only [getopts, bind, Option.bind_eq_some_iff] at first
    obtain ⟨⟨c, next⟩, called, ⟨rest, last'⟩, others, same⟩ := first
    cases same
    rw [Nat.add_right_comm]
    exact getopts_succ called (ih others)

/-- What the calls for a list of options return and store. -/
def returned (opts : List Opt) : List (ℤ × Option CString) := opts.map fun opt => (opt.char.plain, opt.arg)

theorem Cluster.left_ne_nil {opts : List Opt} {left : CString} {extra : List CString}
    (cluster : Cluster spec opts left extra) : left ≠ [] := by
  cases cluster <;> simp

/-- A word of options is not a double dash. -/
theorem Cluster.head_ne {opts : List Opt} {left : CString} {extra : List CString}
    (cluster : Cluster spec opts left extra) : left.head? ≠ some (chr '-') := by
  have option {c : CChar} {takes : Bool} (known : (c, takes) ∈ spec.options) (rest : CString) :
      (c :: rest).head? ≠ some (chr '-') := by
    rw [List.head?_cons, ne_eq, Option.some.injEq]
    exact (alnum_ne (spec.alnum _ known)).2
  cases cluster with
  | flag known => exact option known _
  | flags known more => exact option known _
  | attached known nonempty => exact option known _
  | separate known => exact option known _

/-- The calls for a word of options, from any place in it. -/
theorem Cluster.getopts {opts : List Opt} {left : CString} {extra : List CString}
    (cluster : Cluster spec opts left extra) {st : OptState} {read : CString} {behind : List CString}
    (inWord : InWord argv st read left (extra ++ behind)) :
    ∃ st', CLite.getopts argv spec.text opts.length st = some (returned opts, st') ∧ AtWord argv st' behind := by
  -- Flags move on inside the word; whatever ends the cluster moves on behind it.
  induction cluster generalizing st read with
  | flag known =>
    obtain ⟨p, shape, called⟩ := getopt_inWord inWord known
    rw [takeOption, if_neg (by simp [shape])] at called
    exact ⟨_, getopts_succ called rfl, inWord.skip rfl rfl⟩
  | @flags c opts cs extra known more ih =>
    obtain ⟨p, shape, called⟩ := getopt_inWord inWord known
    rw [takeOption, if_neg (by simp [shape]), OptState.advance, if_neg more.left_ne_nil] at called
    obtain ⟨started, words, position, notDashes⟩ := inWord
    obtain ⟨st', later, ended⟩ := @ih { st with optarg := none, optpos := st.optpos + 1 } (read ++ [c])
      ⟨started, by rw [words, List.append_assoc]; rfl, by simp [position],
        by rwa [List.append_assoc]⟩
    exact ⟨st', getopts_succ called later, ended⟩
  | attached known nonempty =>
    obtain ⟨p, shape, called⟩ := getopt_inWord inWord known
    rw [takeOption, if_pos (by simp [shape]), if_pos nonempty] at called
    exact ⟨_, getopts_succ called rfl, inWord.skip rfl rfl⟩
  | @separate c arg known =>
    obtain ⟨p, shape, called⟩ := getopt_inWord inWord known
    have next : argv[(st.optind + 1).toNat]? = some arg := by
      have started := inWord.started
      rw [show (st.optind + 1).toNat = st.optind.toNat + 1 by omega, ← List.head?_drop, ← List.drop_drop,
        inWord.words]
      rfl
    rw [takeOption, if_pos (by simp [shape]), if_neg (by simp), next] at called
    exact ⟨_, getopts_succ called rfl, inWord.skip rfl rfl⟩

/-- The calls for all words of options. -/
theorem Rendering.getopts {opts : List Opt} {words tail : List CString} (rendering : Rendering spec opts words)
    {st : OptState} (atWord : AtWord argv st (words ++ tail)) :
    ∃ st', CLite.getopts argv spec.text opts.length st = some (returned opts, st') ∧ AtWord argv st' tail := by
  induction rendering generalizing st with
  | nil => exact ⟨st, rfl, atWord⟩
  | @cons opts cs extra later words cluster more ih =>
    obtain ⟨started, shape, total, position⟩ := atWord
    have inWord : InWord argv st [] cs (extra ++ (words ++ tail)) :=
      ⟨started, by rw [shape]; simp, position, cluster.head_ne⟩
    obtain ⟨middle, first, between⟩ := cluster.getopts inWord
    obtain ⟨last, second, ended⟩ := ih between
    refine ⟨last, ?_, ended⟩
    rw [List.length_append, returned, List.map_append]
    exact getopts_add first second

/-- At the end of the options a call stops at the operands. -/
theorem Ending.getopt {tail operands : List CString} (ending : Ending tail operands) {st : OptState}
    (atWord : AtWord argv st tail) (optstring : CString) :
    ∃ st', CLite.getopt argv optstring st = some (-1, st') ∧
      st'.optind + operands.length = argv.length := by
  obtain ⟨started, shape, total, -⟩ := atWord
  have word : argv[st.optind.toNat]? = tail.head? := by rw [← shape, List.head?_drop]
  unfold CLite.getopt
  rw [if_neg (by omega)]
  dsimp only
  rw [word]
  cases ending with
  | dashes operands =>
    refine ⟨{ st with optind := st.optind + 1 }, by simp, ?_⟩
    rw [List.length_cons] at total
    push_cast at total ⊢
    omega
  | none => exact ⟨st, rfl, total⟩
  | operand plain =>
    refine ⟨st, ?_, total⟩
    rw [List.head?_cons]
    dsimp only
    rw [if_pos]
    rcases plain with rfl | other
    · exact .inr rfl
    · exact .inl other

/-- Successive calls return the options that were rendered and then stop at the first operand. -/
theorem getopt_decodes {opts : List Opt} {words tail operands : List CString}
    (rendering : Rendering spec opts words) (ending : Ending tail operands) (program : CString)
    (optarg : Option CString) (optopt : ℤ) :
    ∃ st st', getopts (program :: (words ++ tail)) spec.text opts.length ⟨1, 1, optarg, optopt⟩ =
        some (opts.map fun opt => (opt.char.plain, opt.arg), st) ∧
      getopt (program :: (words ++ tail)) spec.text st = some (-1, st') ∧
      st'.optind + operands.length = (program :: (words ++ tail)).length := by
  have start : AtWord (program :: (words ++ tail)) ⟨1, 1, optarg, optopt⟩ (words ++ tail) :=
    ⟨Int.one_pos, rfl, by rw [List.length_cons]; push_cast; omega, rfl⟩
  obtain ⟨st, calls, stopped⟩ := rendering.getopts start
  obtain ⟨st', last, operand⟩ := ending.getopt stopped spec.text
  exact ⟨st, st', calls, last, operand⟩

/-- The option string `ab:`. -/
def abSpec : OptSpec where
  leading := false
  options := [(chr 'a', false), (chr 'b', true)]
  alnum := by decide
  distinct := by decide

/-- The command line `prog -ab x -- f`. -/
theorem getopt_decodes_cluster :
    ∃ st st', getopts [[], [chr '-', chr 'a', chr 'b'], [chr 'x'], [chr '-', chr '-'], [chr 'f']]
        abSpec.text 2 ⟨1, 1, none, 63⟩ =
        some ([((chr 'a').plain, none), ((chr 'b').plain, some [chr 'x'])], st) ∧
      getopt [[], [chr '-', chr 'a', chr 'b'], [chr 'x'], [chr '-', chr '-'], [chr 'f']] abSpec.text st =
        some (-1, st') ∧
      st'.optind + 1 = 5 :=
  getopt_decodes (.cons (.flags (by decide) (.separate (by decide))) .nil) (.dashes [[chr 'f']]) [] none 63

end CLite
