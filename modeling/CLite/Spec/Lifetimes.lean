import CLite.Lib.CallRun
import CLite.Model.GlobOwned

/-! # Programs and what they own

A program has handles, each of which owns the resources that its functions have taken. A call makes a handle, or uses
one and leaves others in its place.
-/

namespace CLite

open Ownership

/-- The blocks with these numbers. -/
def blocks (numbers : List ℕ) : Multiset Resource := ↑(numbers.map Resource.block)

def FileHandle.owned (stream : FileHandle) : Multiset Resource :=
  .descriptor stream.fd ::ₘ blocks stream.block.toList

def DirHandle.owned (dirp : DirHandle) : Multiset Resource :=
  .descriptor dirp.fd ::ₘ .block dirp.block ::ₘ blocks dirp.buf.toList

def AddrinfoHandle.owned (res : AddrinfoHandle) : Multiset Resource := {.block res.addr, .block res.block}

/-- The array of a `glob_t` and the strings that it points to. -/
def OwnedGlob.owned (pglob : OwnedGlob) : Multiset Resource :=
  blocks (pglob.pathv.map Prod.fst).toList + blocks (pglob.strings.map OwnedString.block)

/-- Something that a program has to give back. -/
inductive Handle where
  | descriptor (fd : ℕ)
  | memory (block : ℕ)
  | stream (stream : FileHandle)
  | dir (dirp : DirHandle)
  | addrs (res : List AddrinfoHandle)
  | paths (pglob : OwnedGlob)

def Handle.owned : Handle → Multiset Resource
  | .descriptor fd => {.descriptor fd}
  | .memory block => {.block block}
  | .stream file => file.owned
  | .dir dirp => dirp.owned
  | .addrs res => (res.map AddrinfoHandle.owned).sum
  | .paths pglob => pglob.owned

/-- What the handles of a program own. -/
def owned (handles : List Handle) : Multiset Resource := (handles.map Handle.owned).sum

/-! ## Calls -/

/-- The handles that a call leaves, and the number of failures that it reports. -/
structure CallResult where
  handles : List Handle
  failures : ℕ

/-- The functions that make a handle. `malloc` stands for `strdup`, `asprintf` and the others that return memory. -/
inductive MakeCall where
  | open
  | malloc
  | fopen
  | opendir
  | getaddrinfo (node : CString)
  | glob (pattern : CString) (flags : BitVec 32)

/-- The functions that use a handle. -/
inductive UseCall where
  | close
  | free
  | realloc
  | fdopen
  | freopen
  | fclose
  | closedir
  | freeaddrinfo
  | globfree

variable (system : ResourceSystem) (fs : FileSystem)

/-- A `fopen` that returns nothing and a `glob` that returns `GLOB_NOSPACE` count as failures. -/
def MakeCall.perform : MakeCall → Program Resource CallResult
  | .open => do
    let fd ← acquire system.opens
    pure ⟨(fd.map .descriptor).toList, 0⟩
  | .malloc => do
    let block ← acquire system.malloc
    pure ⟨(block.map .memory).toList, 0⟩
  | .fopen => do
    match ← fopenOwned system with
    | none => pure ⟨[], 1⟩
    | some stream => pure ⟨[.stream stream], 0⟩
  | .opendir => do
    let dirp ← opendirOwned system
    pure ⟨(dirp.map .dir).toList, 0⟩
  | .getaddrinfo node => do
    let res ← getaddrinfoOwned system node
    pure ⟨(res.map fun res => .addrs [res]).toList, 0⟩
  | .glob pattern flags => do
    let (code, pglob) ← globOwned system fs pattern flags ⟨0, none, 0⟩
    pure ⟨[.paths pglob], if code = GLOB_NOSPACE then 1 else 0⟩

/-- A call is not defined for a handle of another kind. A stream that `freopen` could not open again may not be used
any more; this counts as a failure. -/
def UseCall.perform : UseCall → Handle → Option (Program Resource CallResult)
  | .close, .descriptor fd => some do
    release (.descriptor fd)
    pure ⟨[], 0⟩
  | .free, .memory block => some do
    release (.block block)
    pure ⟨[], 0⟩
  | .realloc, .memory block => some do
    let moved ← exchange system.malloc block
    pure ⟨[.memory (moved.getD block)], 0⟩
  | .fdopen, .descriptor fd => some do
    let stream ← fdopenOwned system fd
    pure ⟨[stream.elim (.descriptor fd) .stream], 0⟩
  | .freopen, .stream stream => some do
    match ← freopenOwned system stream with
    | none => pure ⟨[], 1⟩
    | some stream => pure ⟨[.stream stream], 0⟩
  | .fclose, .stream stream => some do
    fcloseOwned stream
    pure ⟨[], 0⟩
  | .closedir, .dir dirp => some do
    closedirOwned dirp
    pure ⟨[], 0⟩
  | .freeaddrinfo, .addrs res => some do
    freeaddrinfoOwned res
    pure ⟨[], 0⟩
  | .globfree, .paths pglob => some do
    let pglob ← globfreeOwned pglob
    pure ⟨[.paths pglob], 0⟩
  | _, _ => none

/-! ## Programs -/

/-- The handles that a program has, the failures it has seen, and what is held in fact. -/
structure Lifetimes where
  handles : List Handle
  failures : ℕ
  store : Ownership.Store Resource

inductive LifetimeCall where
  | make (call : MakeCall)
  | use (call : UseCall) (index : ℕ)

def lifetimeStep (p : Lifetimes) : LifetimeCall → Option Lifetimes
  | .make call => do
    let (result, store) ← call.perform system fs p.store
    some ⟨result.handles ++ p.handles, p.failures + result.failures, store⟩
  | .use call index => do
    let handle ← p.handles[index]?
    let program ← call.perform system handle
    let (result, store) ← program p.store
    some ⟨result.handles ++ p.handles.eraseIdx index, p.failures + result.failures, store⟩

/-- Patterns fit the array for their text and `GLOB_APPEND` is not used; a handle is used only as what it is. -/
def LifetimeDiscipline (p : Lifetimes) : LifetimeCall → Prop
  | .make (.glob pattern flags) =>
    (globUnescape (hasFlag flags GLOB_NOESCAPE) pattern).length < bufferSize ∧ hasFlag flags GLOB_APPEND = false
  | .make _ => True
  | .use call index => ∃ handle, p.handles[index]? = some handle ∧ (call.perform system handle).isSome = true

/-- The three standard streams. -/
def standardStreams : Lifetimes where
  handles := [.stream ⟨0, none⟩, .stream ⟨1, none⟩, .stream ⟨2, none⟩]
  failures := 0
  store := ⟨{.descriptor 0, .descriptor 1, .descriptor 2}, 0⟩

end CLite
