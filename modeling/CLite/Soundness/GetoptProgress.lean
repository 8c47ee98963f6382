import CLite.Soundness.Getopt

/-! # `getopt` makes progress

The position that `getopt` keeps is the start of a word or a character inside a word, whatever the command line and
the option string are. Every call that does not return `-1` reads a character and leaves less to read, so that a
loop until `-1` ends. `optind` starts at 1, which is beyond a command line without words.
-/

namespace CLite

variable {argv : List CString} {optstring : CString} {st next : OptState} {c : ℤ}

/-- The position is inside the command line: the start of a word, or a character before the end of one. -/
structure OptState.Placed (argv : List CString) (st : OptState) : Prop where
  started : 1 ≤ st.optind
  within : st.optind ≤ max (argv.length : ℤ) 1
  positive : 1 ≤ st.optpos
  inside : st.optpos = 1 ∨ ∃ word, argv[st.optind.toNat]? = some word ∧ st.optpos < word.length

/-- The words from `optind` on, and their characters except those of the first word that were read. -/
def unread (argv : List CString) (st : OptState) : ℕ :=
  (argv.drop st.optind.toNat).length + ((argv.drop st.optind.toNat).flatten.length - (st.optpos - 1))

/-- What a call that reads a character does: it goes on inside the word, behind it, or behind the next word. -/
inductive Reads (argv : List CString) (st next : OptState) (rest : CString) : Prop where
  | character (more : rest ≠ []) (same : next.optind = st.optind) (moved : next.optpos = st.optpos + 1)
  | word (moved : next.optind = st.optind + 1) (position : next.optpos = 1)
  | words (another : (st.optind + 1).toNat < argv.length) (moved : next.optind = st.optind + 2)
      (position : next.optpos = 1)

theorem reads_advance {other : OptState} (sameWord : other.optind = st.optind) (samePlace : other.optpos = st.optpos)
    (rest : CString) : Reads argv st (other.advance rest) rest := by
  unfold OptState.advance
  split
  · exact .word (congrArg (· + 1) sameWord) rfl
  · next more => exact .character more sameWord (congrArg (· + 1) samePlace)

theorem takeOption_reads (argv : List CString) (optstring : CString) (st : OptState) (x : CChar) (rest p : CString) :
    Reads argv st (takeOption argv optstring st x rest p).2 rest := by
  unfold takeOption
  split
  · split
    · exact .word rfl rfl
    · split
      · next found => exact .words (List.getElem?_eq_some_iff.mp found).1 rfl rfl
      · exact .word rfl rfl
  · exact reads_advance (by rfl) (by rfl) rest

/-- What a call can do. It returns `-1` and stays where it is or goes behind a double dash, or it reads the
character at its position. -/
inductive Steps (argv : List CString) (st : OptState) : ℤ → OptState → Prop where
  | stop : Steps argv st (-1) st
  | dashes (word : argv[st.optind.toNat]? = some [chr '-', chr '-']) :
      Steps argv st (-1) { st with optind := st.optind + 1 }
  | read {c : ℤ} {next : OptState} {word rest : CString} {x : CChar} (current : argv[st.optind.toNat]? = some word)
      (left : word.drop st.optpos = x :: rest) (reads : Reads argv st next rest) : Steps argv st c next

/-- From a position inside the command line a call returns. -/
theorem getopt_steps (placed : st.Placed argv) (optstring : CString) :
    ∃ c next, getopt argv optstring st = some (c, next) ∧ Steps argv st c next := by
  have started := placed.started
  unfold getopt
  rw [if_neg (by omega)]
  dsimp only
  cases current : argv[st.optind.toNat]? with
  | none => exact ⟨_, _, rfl, .stop⟩
  | some word =>
    dsimp only
    split
    · exact ⟨_, _, rfl, .stop⟩
    · next option =>
      split
      · next double => exact ⟨_, _, rfl, .dashes (double ▸ current)⟩
      · cases left : word.drop st.optpos with
        | nil =>
          exfalso
          rcases placed.inside with first | ⟨other, same, inside⟩
          · rw [first, List.drop_one] at left
            exact option (.inr left)
          · obtain rfl : word = other := Option.some.inj (current.symm.trans same)
            have short := List.drop_eq_nil_iff.mp left
            omega
        | cons x rest =>
          dsimp only
          split
          · exact ⟨_, _, rfl, .read current left (reads_advance (by rfl) (by rfl) rest)⟩
          · split
            · exact ⟨_, _, rfl, .read current left (reads_advance (by rfl) (by rfl) rest)⟩
            · exact ⟨_, _, rfl, .read current left (takeOption_reads ..)⟩

theorem lt_of_drop {word rest : CString} {x : CChar} {position : ℕ} (left : word.drop position = x :: rest) :
    word.length = position + rest.length + 1 := by
  have length := congrArg List.length left
  rw [List.length_drop, List.length_cons] at length
  omega

/-- A call keeps the position inside the command line. -/
theorem Steps.placed (placed : st.Placed argv) (steps : Steps argv st c next) : next.Placed argv := by
  have started := placed.started
  have positive := placed.positive
  cases steps with
  | stop => exact placed
  | dashes current =>
    have bound := (List.getElem?_eq_some_iff.mp current).1
    refine ⟨?_, ?_, positive, .inl ?_⟩
    · dsimp only
      omega
    · dsimp only
      omega
    · rcases placed.inside with first | ⟨word, same, inside⟩
      · exact first
      · obtain rfl := Option.some.inj (current.symm.trans same)
        simp only [List.length_cons, List.length_nil] at inside
        dsimp only
        omega
  | @read _ _ word rest x current left reads =>
    have bound := (List.getElem?_eq_some_iff.mp current).1
    have length := lt_of_drop left
    cases reads with
    | character more same moved =>
      have positive' := List.length_pos_iff.mpr more
      refine ⟨by omega, by omega, by omega, .inr ⟨word, same ▸ current, by omega⟩⟩
    | word moved position => exact ⟨by omega, by omega, by omega, .inl position⟩
    | words another moved position => exact ⟨by omega, by omega, by omega, .inl position⟩

/-- The characters and words from a word on. -/
theorem drop_word {index : ℕ} {word : CString} (current : argv[index]? = some word) :
    argv.drop index = word :: argv.drop (index + 1) := by
  obtain ⟨bound, rfl⟩ := List.getElem?_eq_some_iff.mp current
  exact List.drop_eq_getElem_cons bound

/-- A call that reads a character leaves less to read. -/
theorem Steps.unread_lt (placed : st.Placed argv) (steps : Steps argv st c next) (going : c ≠ -1) :
    unread argv next < unread argv st := by
  have started := placed.started
  have positive := placed.positive
  cases steps with
  | stop => exact absurd rfl going
  | dashes _ => exact absurd rfl going
  | @read _ _ word rest x current left reads =>
    have length := lt_of_drop left
    have words := drop_word current
    cases reads with
    | character more same moved =>
      rw [unread, unread, same, moved, words]
      simp only [List.length_cons, List.flatten_cons, List.length_append]
      omega
    | word moved position =>
      have index : (st.optind + 1).toNat = st.optind.toNat + 1 := by omega
      rw [unread, unread, moved, position, index, words]
      simp only [List.length_cons, List.flatten_cons, List.length_append]
      omega
    | words another moved position =>
      have index : (st.optind + 2).toNat = st.optind.toNat + 1 + 1 := by omega
      have another' : st.optind.toNat + 1 < argv.length := by omega
      rw [unread, unread, moved, position, index, words, drop_word (List.getElem?_eq_getElem another')]
      simp only [List.length_cons, List.flatten_cons, List.length_append]
      omega

/-- What should hold of each call: the position is a character of the command line unless the call returns `-1`,
`optind` neither decreases nor goes beyond the end, and a call that does not return `-1` leaves less to read. -/
structure Progresses (argv : List CString) (limit : ℤ) (st : OptState) (c : ℤ) (next : OptState) : Prop where
  positive : 1 ≤ st.optpos
  inside : c ≠ -1 → ∃ word x, argv[st.optind.toNat]? = some word ∧ word[st.optpos]? = some x
  monotone : st.optind ≤ next.optind
  within : st.optind ≤ limit ∧ next.optind ≤ limit
  reduces : c ≠ -1 → unread argv next < unread argv st

theorem Steps.progresses (placed : st.Placed argv) (steps : Steps argv st c next) :
    Progresses argv (max argv.length 1) st c next := by
  have later := steps.placed placed
  refine ⟨placed.positive, ?_, ?_, ⟨placed.within, later.within⟩, steps.unread_lt placed⟩
  · intro going
    cases steps with
    | stop => exact absurd rfl going
    | dashes _ => exact absurd rfl going
    | @read _ _ word rest x current left reads =>
      refine ⟨word, x, current, ?_⟩
      rw [← List.head?_drop, left, List.head?_cons]
  · cases steps with
    | stop => exact Int.le_refl _
    | dashes _ => exact Int.le_add_of_nonneg_right (by decide)
    | read _ _ reads => cases reads <;> omega

/-- Every number of calls returns, at a position inside the command line. -/
theorem getopts_placed (placed : st.Placed argv) (optstring : CString) (calls : ℕ) :
    ∃ results last, getopts argv optstring calls st = some (results, last) ∧ last.Placed argv := by
  induction calls generalizing st with
  | zero => exact ⟨[], st, rfl, placed⟩
  | succ calls ih =>
    obtain ⟨c, next, called, steps⟩ := getopt_steps placed optstring
    obtain ⟨results, last, later, kept⟩ := ih (steps.placed placed)
    exact ⟨_, last, getopts_succ called later, kept⟩

/-- A loop until `-1` makes at most as many calls before that as there is to read. -/
theorem getopts_stop (placed : st.Placed argv) (optstring : CString) :
    ∃ calls results last next, calls ≤ unread argv st ∧ getopts argv optstring calls st = some (results, last) ∧
      (∀ result ∈ results, result.1 ≠ -1) ∧ getopt argv optstring last = some (-1, next) := by
  induction left : unread argv st using Nat.strongRecOn generalizing st with
  | _ amount ih =>
    obtain ⟨c, next, called, steps⟩ := getopt_steps placed optstring
    rcases eq_or_ne c (-1) with rfl | going
    · exact ⟨0, [], st, next, Nat.zero_le _, rfl, nofun, called⟩
    · have less := steps.unread_lt placed going
      obtain ⟨calls, results, last, final, bound, later, others, stopped⟩ :=
        ih _ (left ▸ less) (steps.placed placed) rfl
      refine ⟨calls + 1, _, last, final, by omega, getopts_succ called later, ?_, stopped⟩
      rintro result (_ | ⟨_, member⟩)
      · exact going
      · exact others result member

theorem start_placed (argv : List CString) (optarg : Option CString) (optopt : ℤ) :
    OptState.Placed argv ⟨1, 1, optarg, optopt⟩ :=
  ⟨Int.le_refl 1, Int.le_max_right _ _, Nat.le_refl 1, .inl rfl⟩

/-- From the start every call makes progress inside the command line, and a loop until `-1` ends. Only without any
word is `optind` beyond the number of words. -/
theorem getopt_progresses (argv : List CString) (optstring : CString) (optarg : Option CString) (optopt : ℤ) :
    (∀ calls, ∃ results st c next, getopts argv optstring calls ⟨1, 1, optarg, optopt⟩ = some (results, st) ∧
      getopt argv optstring st = some (c, next) ∧ Progresses argv (max argv.length 1) st c next) ∧
    ∃ calls results st next, calls ≤ unread argv ⟨1, 1, optarg, optopt⟩ ∧
      getopts argv optstring calls ⟨1, 1, optarg, optopt⟩ = some (results, st) ∧
      (∀ result ∈ results, result.1 ≠ -1) ∧ getopt argv optstring st = some (-1, next) := by
  refine ⟨?_, getopts_stop (start_placed ..) optstring⟩
  intro calls
  obtain ⟨results, st, run, placed⟩ := getopts_placed (start_placed argv optarg optopt) optstring calls
  obtain ⟨c, next, called, steps⟩ := getopt_steps placed optstring
  exact ⟨results, st, c, next, run, called, steps.progresses placed⟩

/-- Without any word, `optind` is 1 and the number of words is 0. -/
theorem getopt_no_words :
    ∃ next, getopt [] [] ⟨1, 1, none, 63⟩ = some (-1, next) ∧
      ¬ Progresses [] ([] : List CString).length ⟨1, 1, none, 63⟩ (-1) next := by
  refine ⟨_, rfl, ?_⟩
  intro progresses
  exact absurd progresses.within.1 (by decide)

end CLite
