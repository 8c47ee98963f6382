import CLite.Model.Scanf
import CLite.Model.Streams

/-! # `sysinfo`

`read_file_to_buf`, `parse_load` and `sysinfo` of `compat.c`, with a valid pointer. A file below `/proc` is its
contents and a schedule of what `read` does with it. An `unsigned long` has 32 bits and an `unsigned short` 16. The
fields of the result that are only set to zero are left out.
-/

namespace CLite

open ByteMemory

/-- A file that can be opened. -/
structure ProcFile where
  contents : List Byte
  schedule : ReadSchedule

/-- The loop of `read_file_to_buf` with `room` bytes up to the last one of `buf`: what it stores. -/
def readFileLoop (schedule : ReadSchedule) (reads room : ℕ) (unread : List Byte) : List Byte :=
  if room = 0 then []
  else
    match schedule reads with
    | none => []
    | some offered =>
      let n := readCount offered room unread.length
      if 0 < n then unread.take n ++ readFileLoop schedule (reads + 1) (room - n) (unread.drop n) else []
termination_by room
decreasing_by
  have bound : readCount offered room unread.length ≤ room := by
    unfold readCount
    omega
  omega

/-- The bytes before the terminator that `read_file_to_buf` leaves, or `none` if the file cannot be opened. -/
def readFileToBuf (files : CString → Option ProcFile) (path : CString) : Option (List Byte) :=
  (files path).map fun file => readFileLoop file.schedule 0 2047 file.contents

/-- The string that bytes and a terminator behind them form. -/
def textOf : List Byte → CString
  | [] => []
  | byte :: bytes => if nonzero : byte ≠ 0 then ⟨byte, nonzero⟩ :: textOf bytes else []

/-- The string in `buf` if `read_file_to_buf` returns a positive number. -/
def fileText (files : CString → Option ProcFile) (path : CString) : Option CString :=
  match readFileToBuf files path with
  | none => none
  | some bytes => if 0 < bytes.length then some (textOf bytes) else none

/-! ## Load averages -/

/-- The value of `*p - '0'` at a digit. -/
def decimalDigit (x : CChar) : ℕ := (x.plain - 48).toNat

def wholeLoop (val : ℕ) : CString → ℕ × CString
  | [] => (val, [])
  | x :: p => if isDecimal x then wholeLoop ((val * 10 + decimalDigit x) % 2 ^ 32) p else (val, x :: p)

def fractionLoop (frac scale : ℕ) : CString → ℕ × CString
  | [] => (frac, [])
  | x :: p =>
    if isDecimal x ∧ 0 < scale then fractionLoop ((frac + decimalDigit x * scale) % 2 ^ 32) (scale / 10) p
    else (frac, x :: p)

/-- The returned value and the string that `*pp` points to afterwards. -/
def parseLoad (p : CString) : ℕ × CString :=
  let (val, p) := wholeLoop 0 (p.dropWhile fun x => x = chr ' ' ∨ x = chr '\t')
  let val := val * 65536 % 2 ^ 32
  match p with
  | [] => (val, [])
  | x :: p =>
    if x = chr '.' then
      let (frac, p) := fractionLoop 0 (65536 / 10) p
      ((val + frac) % 2 ^ 32, p)
    else (val, x :: p)

/-! ## The whole -/

structure SysInfo where
  uptime : BitVec 32
  loads : ℕ × ℕ × ℕ
  totalram : ℕ
  freeram : ℕ
  procs : ℕ
  memUnit : ℕ

/-- The value of a `long` variable after the stores through a pointer to it. -/
def storedLong (stores : List Store) (before : BitVec 32) : BitVec 32 :=
  stores.foldl (fun value store => match store with | .long stored => stored | _ => value) before

/-- The part for `/proc/uptime`; `none` is undefined behaviour of `sscanf`. -/
def readUptime (buf : CString) (info : SysInfo) : Option SysInfo :=
  (vsscanf buf (cstr "%ld")).map fun scanned =>
    let up := storedLong scanned.2 0
    if 0 < up.toInt then { info with uptime := up } else info

def readLoads (buf : CString) (info : SysInfo) : SysInfo :=
  let (first, p) := parseLoad buf
  let (second, p) := parseLoad p
  let (third, _) := parseLoad p
  { info with loads := (first, second, third) }

/-- The two attempts at a line of `/proc/meminfo`. -/
def meminfoLine (line : CString) (info : SysInfo) : Option SysInfo := do
  let (matched, stores) ← vsscanf line (cstr "MemTotal: %lu")
  let v := storedLong stores 0
  if matched = 1 then return { info with totalram := v.toNat * 1024 % 2 ^ 32 }
  let (matched, stores) ← vsscanf line (cstr "MemFree: %lu")
  let v := storedLong stores v
  if matched = 1 then return { info with freeram := v.toNat * 1024 % 2 ^ 32 }
  return info

theorem length_dropWhile_lt {line rest : CString} {x : CChar} {p : CChar → Bool}
    (left : line.dropWhile p = x :: rest) : rest.length < line.length := by
  have shorter := (List.dropWhile_suffix (l := line) p).length_le
  rw [left, List.length_cons] at shorter
  omega

/-- The loop over the lines of `/proc/meminfo`, with a string for each pointer into `buf`. -/
def meminfoLoop (line : CString) (info : SysInfo) : Option SysInfo :=
  if line = [] then some info
  else
    match meminfoLine (line.takeWhile (· ≠ chr '\n')) info with
    | none => none
    | some info =>
      match _ : line.dropWhile (· ≠ chr '\n') with
      | [] => some info
      | _ :: rest => meminfoLoop rest info
termination_by line.length
decreasing_by exact length_dropWhile_lt ‹_›

/-- The count of the entries of `/proc` that start with a digit. -/
def countProcs (names : List CString) : ℕ :=
  names.foldl (fun n name => if name.head?.any isDecimal then (n + 1) % 2 ^ 16 else n) 0

/-- A part of `sysinfo` that uses the text of a file if it can be read. -/
def withFile (files : CString → Option ProcFile) (path : CString) (part : CString → SysInfo → Option SysInfo)
    (info : SysInfo) : Option SysInfo :=
  match fileText files path with
  | none => some info
  | some buf => part buf info

/-- `sysinfo`, with the files that can be opened and the names that `readdir` gives for `/proc`. -/
def sysinfo (files : CString → Option ProcFile) (entries : Option (List CString)) : Option SysInfo := do
  let info ← withFile files (cstr "/proc/uptime") readUptime ⟨0, (0, 0, 0), 0, 0, 0, 1⟩
  let info ← withFile files (cstr "/proc/loadavg") (fun buf info => some (readLoads buf info)) info
  let info ← withFile files (cstr "/proc/meminfo") meminfoLoop info
  match entries with
  | none => return info
  | some names => return { info with procs := countProcs names }

end CLite
