import CLite.Lib.Delimited
import CLite.Proofs.ScanRounds
import CLite.Spec.ProcTexts

/-! # `/proc/meminfo`

Each line is scanned for one key and then for the other. A scan reads the key, passes over white space and takes a
number, and a scan that fails has stored nothing. So each line sets at most one field, and the last line with a number
for a key decides.
-/

namespace CLite

open Delimited ByteMemory

section Numbers

variable {s : CString} {n : Numeral}

/-- A decimal numeral has no prefix, and its digits are decimal. -/
theorem Numeral.Valid.decimal (valid : n.Valid 10) : n.core = n.digits ∧ ∀ x ∈ n.digits, IsDigit 10 x = true := by
  have plain : n.hex = none := by
    rw [Option.eq_none_iff_forall_not_mem]
    intro letter member
    have allowed := (valid.hex letter member).2
    omega
  have digits := valid.digits
  rw [Numeral.radix, plain] at digits
  exact ⟨by rw [Numeral.core, plain]; rfl, digits⟩

/-- The digits at the front of a string are the longest number there. -/
theorem starts_digits (some : s.takeWhile (IsDigit 10) ≠ []) :
    Starts 10 ⟨[], .none, none, s.takeWhile (IsDigit 10)⟩ s := by
  have valid : Numeral.Valid 10 ⟨[], .none, none, s.takeWhile (IsDigit 10)⟩ :=
    ⟨by simp, by simp, some, fun x => List.mem_takeWhile_imp⟩
  have front := valid.front (s.dropWhile (IsDigit 10))
  have whole : (Numeral.mk [] .none none (s.takeWhile (IsDigit 10))).text ++ s.dropWhile (IsDigit 10) = s :=
    List.takeWhile_append_dropWhile
  rw [whole] at front
  apply starts_of_core front whole.symm valid (List.prefix_append ..)
  intro m validM within
  have body : m.core <+: s := within.trans (by rw [valid.decimal.1, List.takeWhile_append_dropWhile])
  rw [validM.decimal.1] at body ⊢
  rw [valid.decimal.1]
  exact length_le_takeWhile validM.decimal.2 body

/-- An unsigned number at the front of a string starts with a digit. -/
theorem digits_of_starts (starts : Starts 10 n s) (unsigned : n.sign = .none)
    (front : ∀ x ∈ s.head?, isSpace x = false) : s.takeWhile (IsDigit 10) ≠ [] := by
  obtain ⟨valid, longest⟩ := starts
  obtain ⟨rest, rfl⟩ := longest.within
  have blanks : n.blanks = [] := by
    cases blanks : n.blanks with
    | nil => rfl
    | cons x more =>
      have space := valid.blanks x (by rw [blanks]; exact List.mem_cons_self ..)
      have other := front x (by rw [Numeral.text, blanks]; rfl)
      rw [space] at other
      cases other
  have text : n.text = n.digits := by rw [Numeral.text, blanks, unsigned, valid.decimal.1]; rfl
  rw [text, List.takeWhile_append_of_pos valid.decimal.2]
  intro none
  exact valid.nonempty (List.append_eq_nil_iff.mp none).1

/-- A line with digits behind its key can be read if their number has 31 bits. -/
theorem keyReadable_of_digits {key line : CString} {number : ℕ} (found : keyNumber key line = some number)
    (small : number < 2 ^ 31) : KeyReadable key line := by
  intro _ n starts
  rw [keyNumber] at found
  split at found
  · next both =>
    obtain ⟨text, value⟩ := starts.unique (starts_digits both.2)
    have digits : ∀ x ∈ n.text, IsDigit 10 x = true := by
      rw [text]
      exact fun x => List.mem_takeWhile_imp
    constructor
    · cases sign : n.sign with
      | none => rfl
      | plus => exact absurd (digits (chr '+') (by simp [Numeral.text, sign, Sign.text])) (by decide)
      | minus => exact absurd (digits (chr '-') (by simp [Numeral.text, sign, Sign.text])) (by decide)
    · have unsigned : n.value 10 = number := value.trans (congrArg Nat.cast (Option.some.inj found))
      omega
  · cases found

end Numbers

section Scans

variable {key line f s : CString} {matched : ℕ} {stores : List Store}

theorem scanRound_literal {x : CChar} (plain : isSpace x = false) (ordinary : x ≠ chr '%') (str f : CString)
    (state : Scanning) : scanRound str x f state = state.literal x f := by
  rw [scanRound, if_neg (by simp [plain]), if_pos ordinary]

theorem scanRound_head {x : CChar} (plain : isSpace x = false) (ordinary : x ≠ chr '%') (str f rest : CString) :
    scanRound str x f ⟨x :: rest, matched, stores⟩ = .next f ⟨rest, matched, stores⟩ := by
  rw [scanRound_literal plain ordinary]
  exact if_pos rfl

/-- The characters of a key are passed over one by one. -/
theorem scanLoop_key (plain : ∀ x ∈ key, isSpace x = false ∧ x ≠ chr '%') (str rest : CString) :
    scanLoop str (key ++ f) ⟨key ++ rest, matched, stores⟩ = scanLoop str f ⟨rest, matched, stores⟩ := by
  induction key with
  | nil => rfl
  | cons x key ih =>
    obtain ⟨⟨notSpace, ordinary⟩, later⟩ := List.forall_mem_cons.mp plain
    rw [List.cons_append, List.cons_append, scanLoop_next (scanRound_head notSpace ordinary ..), ih later]

/-- Another line stops the scan without a store. -/
theorem scanLoop_other (plain : ∀ x ∈ key, isSpace x = false ∧ x ≠ chr '%') (str : CString) (other : ¬ key <+: s) :
    ∃ left, scanLoop str (key ++ f) ⟨s, matched, stores⟩ = some ⟨left, matched, stores⟩ := by
  induction key generalizing s with
  | nil => exact absurd List.nil_prefix other
  | cons x key ih =>
    obtain ⟨⟨notSpace, ordinary⟩, later⟩ := List.forall_mem_cons.mp plain
    by_cases here : s.head? = some x
    · obtain ⟨rest, rfl⟩ := List.head?_eq_some_iff.mp here
      rw [List.cons_append, scanLoop_next (scanRound_head notSpace ordinary ..)]
      exact ih later fun within => other (List.cons_prefix_cons.mpr ⟨rfl, within⟩)
    · have round : scanRound str x (key ++ f) ⟨s, matched, stores⟩ = .leave ⟨s, matched, stores⟩ := by
        rw [scanRound_literal notSpace ordinary, Scanning.literal, if_neg here]
      exact ⟨s, scanLoop_leave round⟩

theorem not_barePrefix_ten (s : CString) : ¬ BarePrefix 10 s := by
  rintro ⟨allowed, -⟩
  omega

/-- The directives `%lu` and `%ld`. -/
theorem scanRound_long {conversion : CChar} (decimal : conversion = chr 'u' ∨ conversion = chr 'd') (str : CString)
    (state : Scanning) :
    scanRound str (chr '%') [chr 'l', conversion] state =
      Scanning.integer { state with s := state.s.dropWhile isSpace } 10 1 false [] := by
  rcases decimal with rfl | rfl
  · rw [scanRound_directive (d := ⟨false, [], .l, chr 'u'⟩) (by decide) rfl, conversion_integer rfl]
    rfl
  · rw [scanRound_directive (d := ⟨false, [], .l, chr 'd'⟩) (by decide) rfl, conversion_integer rfl]
    rfl

/-- A number at the front of a string is stored; nothing is stored if there is none. -/
theorem scanLoop_number (str : CString) (front : ∀ x ∈ s.head?, isSpace x = false)
    (unsigned : ∀ n, Starts 10 n s → n.sign = .none) :
    (scanLoop str (cstr "%lu") ⟨s, 0, []⟩).map (fun state => (state.matched, state.stores)) =
      some (if s.takeWhile (IsDigit 10) = [] then (0, []) else
        (1, [.long (BitVec.ofNat 32 (Nat.ofDigits 10 ((s.takeWhile (IsDigit 10)).map digitNumber).reverse))])) := by
  have skipped : s.dropWhile isSpace = s := by
    cases s with
    | nil => rfl
    | cons x s => exact List.dropWhile_cons_of_neg (by simp [front x rfl])
  have round := scanRound_long (.inl rfl) str ⟨s, 0, []⟩
  simp only [skipped] at round
  by_cases none : s.takeWhile (IsDigit 10) = []
  · have missing : ¬ ((∃ n, Starts 10 n s) ∧ ¬ BarePrefix 10 s) := by
      rintro ⟨⟨n, starts⟩, -⟩
      exact digits_of_starts starts (unsigned n starts) front none
    have stopped : scanLoop str (cstr "%lu") ⟨s, 0, []⟩ = some ⟨s, 0, []⟩ :=
      scanLoop_leave (round.trans (integer_leave missing))
    rw [stopped, if_pos none]
    rfl
  · have taken : Scanning.integer ⟨s, 0, []⟩ (10 : ℕ) 1 false [] = _ :=
      integer_numeral (starts_digits none) (not_barePrefix_ten s)
    have read : scanLoop str (cstr "%lu") ⟨s, 0, []⟩ = _ := scanLoop_next (round.trans taken)
    rw [read, scanLoop_nil, if_neg none]
    simp only [storeInteger, ofInt_int32]
    rfl

/-- A scan of a line for a key: it takes the number behind the key, if there is one. -/
theorem vsscanf_key (plain : ∀ x ∈ key, isSpace x = false ∧ x ≠ chr '%') (readable : KeyReadable key line) :
    vsscanf line (key ++ cstr " %lu") =
      some ((keyNumber key line).elim (0, []) fun number => (1, [.long (BitVec.ofNat 32 number)])) := by
  by_cases starts : key <+: line
  · have unsigned := fun n number => (readable starts n number).1
    obtain ⟨rest, rfl⟩ := starts
    have behind : behindKey key (key ++ rest) = rest.dropWhile isSpace := by rw [behindKey, List.drop_left]
    have blank : scanRound (key ++ rest) (chr ' ') (cstr "%lu") ⟨rest, 0, []⟩ =
        .next (cstr "%lu") ⟨rest.dropWhile isSpace, 0, []⟩ := rfl
    have front : ∀ x ∈ (rest.dropWhile isSpace).head?, isSpace x = false := by
      intro x head
      have stop := List.head?_dropWhile_not isSpace rest
      rwa [head] at stop
    have number := scanLoop_number (key ++ rest) front (behind ▸ unsigned)
    rw [vsscanf, scanLoop_key plain]
    refine (congrArg _ (scanLoop_next blank)).trans (number.trans ?_)
    rw [keyNumber, behind]
    by_cases none : (rest.dropWhile isSpace).takeWhile (IsDigit 10) = []
    · rw [if_pos none, if_neg fun both => both.2 none]
      rfl
    · rw [if_neg none, if_pos ⟨List.prefix_append .., none⟩]
      rfl
  · obtain ⟨left, stopped⟩ : ∃ left, scanLoop line (key ++ cstr " %lu") ⟨line, 0, []⟩ = some ⟨left, 0, []⟩ :=
      scanLoop_other plain line starts
    rw [vsscanf, stopped, keyNumber, if_neg fun both => starts both.1]
    rfl

end Scans

section Lines

variable {line : CString}

/-- What the two attempts at a line set. -/
def scannedLine (info : SysInfo) (line : CString) : SysInfo :=
  { info with
    totalram := (keyNumber memTotalKey line).elim info.totalram (· * 1024 % 2 ^ 32)
    freeram := (keyNumber memFreeKey line).elim info.freeram (· * 1024 % 2 ^ 32) }

theorem prefix_of_keyNumber {key : CString} {number : ℕ} (found : keyNumber key line = some number) :
    key <+: line := by
  by_contra other
  rw [keyNumber, if_neg fun both => other both.1] at found
  cases found

/-- No line starts with both keys. -/
theorem keyNumber_free_of_total {number : ℕ} (total : keyNumber memTotalKey line = some number) :
    keyNumber memFreeKey line = none := by
  cases free : keyNumber memFreeKey line with
  | none => rfl
  | some other =>
    have both := List.prefix_of_prefix_length_le (prefix_of_keyNumber free) (prefix_of_keyNumber total) (by decide)
    exact absurd both (by decide)

theorem meminfoLine_eq (total : KeyReadable memTotalKey line) (free : KeyReadable memFreeKey line) (info : SysInfo) :
    meminfoLine line info = some (scannedLine info line) := by
  have first : vsscanf line (cstr "MemTotal: %lu") = _ := @vsscanf_key memTotalKey line (by decide) total
  have second : vsscanf line (cstr "MemFree: %lu") = _ := @vsscanf_key memFreeKey line (by decide) free
  have bytes (number : ℕ) : (BitVec.ofNat 32 number).toNat * 1024 % 2 ^ 32 = number * 1024 % 2 ^ 32 := by
    rw [BitVec.toNat_ofNat]
    omega
  rw [meminfoLine, first, second, scannedLine]
  cases found : keyNumber memTotalKey line with
  | some number =>
    rw [keyNumber_free_of_total found]
    exact congrArg (fun size => some { info with totalram := size }) (bytes number)
  | none =>
    cases keyNumber memFreeKey line with
    | some number => exact congrArg (fun size => some { info with freeram := size }) (bytes number)
    | none => rfl

/-- The lines of a text as the loop cuts them. -/
theorem splitOnP_newline (line : CString) :
    line.splitOnP newline = line.takeWhile (· ≠ chr '\n') ::
      match line.dropWhile (· ≠ chr '\n') with
      | [] => []
      | _ :: rest => rest.splitOnP newline := by
  have same : (fun x => decide (x ≠ chr '\n')) = fun x => !newline x := by
    funext x
    exact decide_not
  have whole := List.takeWhile_append_dropWhile (p := fun x => !newline x) (l := line)
  rw [splitOnP_following, same]
  change lead newline line ++ _ = line at whole
  rcases following_cases newline line with ⟨none, all⟩ | ⟨x, rest, found, _, split⟩
  · rw [all, List.append_right_eq_self] at whole
    rw [none, whole]
    rfl
  · have left : line.dropWhile (fun x => !newline x) = x :: rest := by
      conv_rhs at whole => rw [split]
      exact List.append_cancel_left whole
    rw [found, left]
    rfl

/-- The loop goes over the lines from the first to the last. -/
theorem meminfoLoop_eq (readable : ∀ l ∈ line.splitOnP newline, KeyReadable memTotalKey l ∧ KeyReadable memFreeKey l)
    (info : SysInfo) : meminfoLoop line info = some ((line.splitOnP newline).foldl scannedLine info) := by
  fun_induction meminfoLoop line info with
  | case1 => rfl
  | case2 line info nonempty failed =>
    rw [splitOnP_newline, List.forall_mem_cons] at readable
    rw [meminfoLine_eq readable.1.1 readable.1.2] at failed
    cases failed
  | case3 line info nonempty next scanned ended =>
    rw [splitOnP_newline, List.forall_mem_cons] at readable
    rw [meminfoLine_eq readable.1.1 readable.1.2] at scanned
    rw [splitOnP_newline, ended, List.foldl_cons, Option.some.inj scanned]
    rfl
  | case4 line info nonempty next scanned x rest left ih =>
    rw [splitOnP_newline, left, List.forall_mem_cons] at readable
    rw [meminfoLine_eq readable.1.1 readable.1.2] at scanned
    rw [splitOnP_newline, left, List.foldl_cons, Option.some.inj scanned]
    exact ih readable.2

end Lines

section Fields

variable {lines : List CString}

/-- Of the lines that set a field, the last one decides. -/
theorem foldl_elim {α β γ : Type*} (found : α → Option β) (use : β → γ) (lines : List α) (before : γ) :
    lines.foldl (fun field line => (found line).elim field use) before =
      ((lines.filterMap found).getLast?).elim before use := by
  induction lines using List.reverseRecOn with
  | nil => rfl
  | append_singleton lines line ih =>
    rw [List.foldl_concat, ih, List.filterMap_append]
    cases here : found line with
    | none => simp [here]
    | some value => simp [here]

theorem keyBytes_eq (key contents : CString) :
    (((contents.splitOnP newline).filterMap (keyNumber key)).getLast?).elim 0 (· * 1024 % 2 ^ 32) =
      keyBytes key contents := by
  rw [keyBytes]
  cases ((contents.splitOnP newline).filterMap (keyNumber key)).getLast? with
  | none => rfl
  | some number => rfl

/-- The fields that the lines of a text leave. -/
theorem foldl_scannedLine (contents : CString) {info : SysInfo} (noTotal : info.totalram = 0)
    (noFree : info.freeram = 0) :
    ((contents.splitOnP newline).foldl scannedLine info).totalram = keyBytes memTotalKey contents ∧
      ((contents.splitOnP newline).foldl scannedLine info).freeram = keyBytes memFreeKey contents := by
  constructor
  · rw [← keyBytes_eq, ← foldl_elim, ← noTotal]
    exact (List.foldl_hom SysInfo.totalram fun _ _ => rfl).symm
  · rw [← keyBytes_eq, ← foldl_elim, ← noFree]
    exact (List.foldl_hom SysInfo.freeram fun _ _ => rfl).symm

end Fields

section Reads

variable {files : CString → Option ProcFile} {path contents : CString} {schedule : ReadSchedule}

/-- Short reads make no difference. -/
theorem readFileLoop_eq (short : ∀ k, (schedule k).isSome) (reads room : ℕ) (unread : List Byte) :
    readFileLoop schedule reads room unread = unread.take room := by
  fun_induction readFileLoop schedule reads room unread with
  | case1 => rfl
  | case2 reads room unread left failed =>
    have offered := short reads
    rw [failed] at offered
    cases offered
  | case3 reads room unread left offered _ n positive ih =>
    have bound : n ≤ room := by
      unfold n readCount
      omega
    rw [ih, ← List.take_add, Nat.add_sub_cancel' bound]
  | case4 reads room unread left offered _ n none =>
    have empty : unread.length = 0 := by
      unfold n readCount at none
      omega
    rw [List.length_eq_zero_iff.mp empty, List.take_nil]

theorem textOf_bytes (contents : CString) : textOf (contents.map CChar.byte) = contents := by
  induction contents with
  | nil => rfl
  | cons x contents ih => rw [List.map_cons, textOf, dif_pos x.nonzero, ih]

theorem fileText_eq (opened : files path = some ⟨contents.map CChar.byte, schedule⟩)
    (short : ∀ k, (schedule k).isSome) (fits : contents.length ≤ 2047) :
    fileText files path = if contents = [] then none else some contents := by
  have read : readFileToBuf files path = some (contents.map CChar.byte) := by
    rw [readFileToBuf, opened, Option.map_some, readFileLoop_eq short, List.take_of_length_le (by simpa using fits)]
  rw [fileText, read]
  cases contents with
  | nil => rfl
  | cons x contents => exact congrArg some (textOf_bytes (x :: contents))

/-- A part of `sysinfo` comes to its end and leaves the sizes of the memory alone. -/
def Keeps (part : SysInfo → Option SysInfo) : Prop :=
  ∀ info, ∃ after, part info = some after ∧ after.totalram = info.totalram ∧ after.freeram = info.freeram

theorem withFile_keeps (files : CString → Option ProcFile) (path : CString)
    {part : CString → SysInfo → Option SysInfo} (keeps : ∀ buf, Keeps (part buf)) :
    Keeps (withFile files path part) := by
  intro info
  rw [withFile]
  cases fileText files path with
  | none => exact ⟨info, rfl, rfl, rfl⟩
  | some buf => exact keeps buf info

/-- The scan of `/proc/uptime` is defined for every text. -/
theorem readUptime_keeps (buf : CString) : Keeps (readUptime buf) := by
  intro info
  have round := scanRound_long (.inr rfl) buf ⟨buf, 0, []⟩
  obtain ⟨state, scanned⟩ : ∃ state, scanLoop buf (cstr "%ld") ⟨buf, 0, []⟩ = some state := by
    simp only [Scanning.integer] at round
    split at round
    · exact ⟨_, scanLoop_leave round⟩
    · exact ⟨_, (scanLoop_next round).trans (scanLoop_nil ..)⟩
  rw [readUptime, vsscanf, scanned, Option.map_some, Option.map_some]
  refine ⟨_, rfl, ?_⟩
  dsimp only
  split
  · exact ⟨rfl, rfl⟩
  · exact ⟨rfl, rfl⟩

theorem withFile_meminfo (opened : files path = some ⟨contents.map CChar.byte, schedule⟩)
    (short : ∀ k, (schedule k).isSome) (fits : contents.length ≤ 2047)
    (readable : ∀ line ∈ contents.splitOnP newline, KeyReadable memTotalKey line ∧ KeyReadable memFreeKey line)
    (info : SysInfo) :
    withFile files path meminfoLoop info = some ((contents.splitOnP newline).foldl scannedLine info) := by
  rw [withFile, fileText_eq opened short fits]
  by_cases empty : contents = []
  · rw [if_pos empty, empty]
    rfl
  · rw [if_neg empty]
    exact meminfoLoop_eq readable info

end Reads

/-- Whatever the lengths of the reads and the order of the lines are, each size is that of the last line with a number
for it. -/
theorem sysinfo_memory (files : CString → Option ProcFile) (entries : Option (List CString)) (contents : CString)
    (schedule : ReadSchedule) (opened : files (cstr "/proc/meminfo") = some ⟨contents.map CChar.byte, schedule⟩)
    (short : ∀ k, (schedule k).isSome) (fits : contents.length ≤ 2047)
    (readable : ∀ line ∈ contents.splitOnP newline, KeyReadable memTotalKey line ∧ KeyReadable memFreeKey line) :
    ∃ info, sysinfo files entries = some info ∧ info.totalram = keyBytes memTotalKey contents ∧
      info.freeram = keyBytes memFreeKey contents := by
  obtain ⟨up, uptime, noTotal, noFree⟩ := withFile_keeps files (cstr "/proc/uptime") readUptime_keeps
    ⟨0, (0, 0, 0), 0, 0, 0, 1⟩
  obtain ⟨loaded, loads, sameTotal, sameFree⟩ := withFile_keeps files (cstr "/proc/loadavg")
    (fun buf info => ⟨readLoads buf info, rfl, rfl, rfl⟩) up
  have memory := withFile_meminfo opened short fits readable loaded
  have fields := foldl_scannedLine contents (sameTotal.trans noTotal) (sameFree.trans noFree)
  simp only [sysinfo, uptime, loads, memory, Option.bind_eq_bind, Option.bind_some]
  cases entries with
  | none => exact ⟨_, rfl, fields⟩
  | some names => exact ⟨_, rfl, fields⟩

/-- Two sizes, with a blank line between them. -/
def memoryLines : CString := cstr "MemFree: 7\n\nMemTotal:\t640 kB"

/-- The file can be opened and is read in pieces of three bytes. -/
def memoryFiles (path : CString) : Option ProcFile :=
  if path = cstr "/proc/meminfo" then some ⟨memoryLines.map CChar.byte, fun _ => some 3⟩ else none

theorem sysinfo_memory_lines :
    ∃ info, sysinfo memoryFiles none = some info ∧ info.totalram = 655360 ∧ info.freeram = 7168 := by
  have readable : ∀ line ∈ memoryLines.splitOnP newline,
      KeyReadable memTotalKey line ∧ KeyReadable memFreeKey line := by
    have lines : memoryLines.splitOnP newline = [cstr "MemFree: 7", [], cstr "MemTotal:\t640 kB"] := rfl
    have free : keyNumber memFreeKey (cstr "MemFree: 7") = some 7 := rfl
    have total : keyNumber memTotalKey (cstr "MemTotal:\t640 kB") = some 640 := rfl
    rw [lines, List.forall_mem_cons, List.forall_mem_cons, List.forall_mem_singleton]
    refine ⟨⟨?_, keyReadable_of_digits free (by decide)⟩, ⟨?_, ?_⟩, keyReadable_of_digits total (by decide), ?_⟩
    all_goals exact fun starts => absurd starts (by decide)
  obtain ⟨info, result, total, free⟩ := sysinfo_memory memoryFiles none memoryLines (fun _ => some 3)
    (if_pos rfl) (fun _ => rfl) (by decide) readable
  exact ⟨info, result, total.trans (by decide), free.trans (by decide)⟩

end CLite
