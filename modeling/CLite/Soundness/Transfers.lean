import CLite.Spec.Transfers

/-! # `fread` and `fwrite` under short transfers

Each makes one system call and divides what it returned by the size of an element. A short transfer is therefore
reported as fewer elements although neither an end of file nor an error occurred, and the bytes of an element that
it cuts are lost. A count above the range of `int` is taken for an error. Without these, every call accounts for its
bytes.
-/

namespace CLite

open ByteMemory CallRun

section Answers

variable {answer : Transfer} {n : ℕ}

theorem Transfer.count_le (answer : Transfer) (n : ℕ) : answer.count n ≤ n := by
  cases answer with
  | moved offered => exact Nat.min_le_right ..
  | ended => exact Nat.zero_le n
  | failed code => exact Nat.zero_le n

theorem Transfer.Trouble.count_eq (trouble : answer.Trouble) (n : ℕ) : answer.count n = 0 := by
  cases answer with
  | moved offered => exact trouble.elim
  | ended => rfl
  | failed code => rfl

theorem Transfer.Trouble.result_toNat (trouble : answer.Trouble) (n : ℕ) : (answer.result n).toNat = 0 := by
  cases answer with
  | moved offered => exact trouble.elim
  | ended => rfl
  | failed code => rfl

/-- A count is returned as it is if it is an `int`, and as a negative number otherwise. -/
theorem Transfer.result_toNat (quiet : ¬ answer.Trouble) (bound : n < 2 ^ 32) :
    (answer.result n).toNat = if answer.count n < 2 ^ 31 then answer.count n else 0 := by
  have most := answer.count_le n
  cases answer with
  | moved offered =>
    have wrapped := Int.bmod_def (((Transfer.moved offered).count n : ℕ) : ℤ) (2 ^ 32)
    rw [Transfer.result, int32, wrapped]
    push_cast
    split_ifs <;> omega
  | ended => exact absurd trivial quiet
  | failed code => exact absurd trivial quiet

end Answers

section Calls

variable {schedule : ℕ → Transfer} {source : ℕ → Byte} {call : TransferCall}

/-- The state after `count` bytes of the call have been moved by one system call. -/
def TransferCall.after (state : Transferred) (count : ℕ) : TransferCall → Transferred
  | fread _ _ => { state with calls := state.calls + 1, consumed := state.consumed + count }
  | fwrite ptr _ _ => { state with calls := state.calls + 1, accepted := state.accepted ++ ptr.take count }

/-- The bytes of the call's elements. -/
def TransferCall.payload (source : ℕ → Byte) (state : Transferred) (count : ℕ) : TransferCall → List Byte
  | fread _ _ => sourceBytes source state.consumed count
  | fwrite ptr _ _ => ptr.take count

theorem sourceBytes_length (source : ℕ → Byte) (position count : ℕ) :
    (sourceBytes source position count).length = count := by
  rw [sourceBytes, List.length_map, List.length_range]

theorem sourceBytes_append (source : ℕ → Byte) (position first second : ℕ) :
    sourceBytes source position first ++ sourceBytes source (position + first) second =
      sourceBytes source position (first + second) := by
  simp only [sourceBytes, List.range_add, List.map_append, List.map_map, Nat.add_assoc]
  rfl

theorem freadTotal_valid (valid : call.Valid) : freadTotal call.size call.nmemb = call.total :=
  Nat.mod_eq_of_lt valid.total

/-- Both functions divide the result of their one system call by the size of an element. -/
theorem execTransfer_spec (schedule : ℕ → Transfer) (source : ℕ → Byte) (st : Stream Transferred)
    (valid : call.Valid) :
    (execTransfer schedule source st call).1 = ((schedule st.state.calls).result call.total).toNat / call.size ∧
      (execTransfer schedule source st call).2.2.state =
        call.after st.state ((schedule st.state.calls).count call.total) := by
  have total := freadTotal_valid valid
  have sized := valid.size
  have counted := valid.nmemb
  have zero {result : ℤ} (low : result ≤ 0) : result.toNat / call.size = 0 := by
    rw [Int.toNat_of_nonpos low, Nat.zero_div]
  cases call with
  | fread size nmemb =>
    have positive : ¬ (size = 0 ∨ nmemb = 0) := by
      simp only [TransferCall.size, TransferCall.nmemb] at sized counted
      omega
    simp only [TransferCall.size, TransferCall.nmemb] at total zero
    simp only [execTransfer, Descriptor.fread, transferDescriptor, if_neg positive, total]
    split
    · next low =>
      refine ⟨(zero low).symm, ?_⟩
      split <;> rfl
    · exact ⟨rfl, rfl⟩
  | fwrite ptr size nmemb =>
    have positive : ¬ (size = 0 ∨ nmemb = 0) := by
      simp only [TransferCall.size, TransferCall.nmemb] at sized counted
      omega
    have length : (ptr.take (TransferCall.fwrite ptr size nmemb).total).length =
        (TransferCall.fwrite ptr size nmemb).total := by
      rw [List.length_take]
      exact Nat.min_eq_left valid.behind
    have most := (schedule st.state.calls).count_le (TransferCall.fwrite ptr size nmemb).total
    simp only [TransferCall.size, TransferCall.nmemb] at total zero
    simp only [execTransfer, Descriptor.fwrite, transferDescriptor, if_neg positive, total, length,
      List.take_take, Nat.min_eq_left most]
    split
    · next low => exact ⟨(zero (Int.le_of_lt low)).symm, rfl⟩
    · exact ⟨rfl, rfl⟩

/-- The buffer of `fread` holds what the system call has moved. -/
theorem fread_bytes (st : Stream Transferred) {size nmemb : ℕ} (valid : (TransferCall.fread size nmemb).Valid) :
    ((transferDescriptor schedule source).fread size nmemb st).2.1 =
      sourceBytes source st.state.consumed
        ((schedule st.state.calls).count (TransferCall.fread size nmemb).total) := by
  have total := freadTotal_valid valid
  have sized := valid.size
  have counted := valid.nmemb
  simp only [TransferCall.size, TransferCall.nmemb] at total sized counted
  rw [Descriptor.fread, if_neg (by omega), total]
  dsimp only [transferDescriptor]
  split <;> rfl

/-- A call accounts for its bytes exactly if its request is not divided. -/
theorem callAccounts_iff (st : Stream Transferred) (valid : call.Valid) :
    CallAccounts schedule source st call ↔ Undivided schedule st call := by
  obtain ⟨items, next⟩ := execTransfer_spec schedule source st valid
  have sized := valid.size
  have most := (schedule st.state.calls).count_le call.total
  have fewer {moved : ℕ} : moved / call.size < call.nmemb ↔ moved < call.total := by
    rw [Nat.div_lt_iff_lt_mul sized, TransferCall.total, Nat.mul_comm]
  have one : (call.after st.state ((schedule st.state.calls).count call.total)).calls = st.state.calls + 1 := by
    cases call <;> rfl
  simp only [CallAccounts, items, next, one, fewer, Undivided]
  by_cases trouble : (schedule st.state.calls).Trouble
  · have positive : 0 < call.total := Nat.mul_pos sized valid.nmemb
    rw [trouble.result_toNat]
    refine iff_of_true ⟨fun _ => ⟨_, Nat.le_refl _, Nat.lt_succ_self _, trouble⟩, ?_⟩ (.inl trouble)
    intro full
    exact absurd positive full
  · have quiet : ¬ ∃ index, st.state.calls ≤ index ∧ index < st.state.calls + 1 ∧ (schedule index).Trouble := by
      rintro ⟨index, low, high, met⟩
      obtain rfl : index = st.state.calls := by omega
      exact trouble met
    rw [Transfer.result_toNat trouble valid.total, imp_iff_not quiet, or_iff_right trouble]
    constructor
    · rintro ⟨full, -⟩
      split at full <;> omega
    · rintro ⟨whole, small⟩
      rw [whole, if_pos small]
      refine ⟨Nat.lt_irrefl _, fun _ => ?_⟩
      cases call <;> exact ⟨rfl, rfl⟩

/-- The elements of an undivided request have the bytes that were moved. -/
theorem execTransfer_payload (source : ℕ → Byte) (st : Stream Transferred) (valid : call.Valid)
    (undivided : Undivided schedule st call) :
    (execTransfer schedule source st call).2.1 =
      call.payload source st.state ((schedule st.state.calls).count call.total) := by
  have moved : (execTransfer schedule source st call).1 * call.size = (schedule st.state.calls).count call.total := by
    rw [(execTransfer_spec schedule source st valid).1]
    by_cases trouble : (schedule st.state.calls).Trouble
    · rw [trouble.result_toNat, trouble.count_eq, Nat.zero_div, Nat.zero_mul]
    · obtain ⟨whole, small⟩ := undivided.resolve_left trouble
      rw [Transfer.result_toNat trouble valid.total, whole, if_pos small]
      exact Nat.div_mul_cancel (Nat.dvd_mul_right ..)
  cases call with
  | fread size nmemb =>
    show List.take _ ((transferDescriptor schedule source).fread size nmemb st).2.1 = _
    rw [fread_bytes st valid]
    apply List.take_of_length_le
    rw [sourceBytes_length]
    exact moved.symm.le
  | fwrite ptr size nmemb => exact congrArg ptr.take moved

end Calls

section Runs

variable {schedule : ℕ → Transfer} {source : ℕ → Byte}

theorem transferStep_permitted_cons (allowed : Stream Transferred → TransferCall → Prop) (st : Stream Transferred)
    (call : TransferCall) (rest : List TransferCall) :
    Permitted (transferStep schedule source) allowed st (call :: rest) ↔
      allowed st call ∧
        Permitted (transferStep schedule source) allowed (execTransfer schedule source st call).2.2 rest := by
  simp [Permitted, transferStep]

theorem transferRun_fread (st : Stream Transferred) (size nmemb : ℕ) (rest : List TransferCall) :
    transferRun schedule source st (.fread size nmemb :: rest) =
      let (_, bytes, next) := execTransfer schedule source st (.fread size nmemb)
      let (received, sent, final) := transferRun schedule source next rest
      (bytes ++ received, sent, final) := rfl

theorem transferRun_fwrite (st : Stream Transferred) (ptr : List Byte) (size nmemb : ℕ) (rest : List TransferCall) :
    transferRun schedule source st (.fwrite ptr size nmemb :: rest) =
      let (_, bytes, next) := execTransfer schedule source st (.fwrite ptr size nmemb)
      let (received, sent, final) := transferRun schedule source next rest
      (received, bytes ++ sent, final) := rfl

/-- Calls whose requests are not divided lose nothing. -/
theorem nothingLost_of_undivided {calls : List TransferCall} (valid : ∀ call ∈ calls, call.Valid)
    {st : Stream Transferred} (permitted : Permitted (transferStep schedule source) (Undivided schedule) st calls) :
    NothingLost schedule source st calls := by
  induction calls generalizing st with
  | nil => exact ⟨rfl, rfl, (List.append_nil _).symm⟩
  | cons call rest ih =>
    obtain ⟨undivided, later⟩ := (transferStep_permitted_cons ..).mp permitted
    have here := valid call (List.mem_cons_self ..)
    obtain ⟨consumed, received, accepted⟩ :=
      ih (fun other member => valid other (List.mem_cons_of_mem _ member)) later
    rw [(execTransfer_spec schedule source st here).2] at consumed received accepted
    have payload := execTransfer_payload source st here undivided
    cases call with
    | fread size nmemb =>
      simp only [TransferCall.after, TransferCall.payload] at consumed received accepted payload
      rw [NothingLost, transferRun_fread]
      dsimp only
      rw [payload]
      refine ⟨?_, ?_, accepted⟩
      · rw [consumed, List.length_append, sourceBytes_length, Nat.add_assoc]
      · rw [List.length_append, sourceBytes_length, ← sourceBytes_append, ← received]
    | fwrite ptr size nmemb =>
      simp only [TransferCall.after, TransferCall.payload] at consumed received accepted payload
      rw [NothingLost, transferRun_fwrite]
      dsimp only
      rw [payload]
      refine ⟨consumed, received, ?_⟩
      rw [accepted, List.append_assoc]

/-- Successive calls account for all their bytes and lose none exactly if every request is answered as a whole, by
an end of file or by an error. -/
theorem transfers_account_iff (schedule : ℕ → Transfer) (source : ℕ → Byte) (st : Stream Transferred)
    (calls : List TransferCall) (valid : ∀ call ∈ calls, call.Valid) :
    Permitted (transferStep schedule source) (CallAccounts schedule source) st calls ∧
        NothingLost schedule source st calls ↔
      Permitted (transferStep schedule source) (Undivided schedule) st calls := by
  have each : Permitted (transferStep schedule source) (CallAccounts schedule source) st calls ↔
      Permitted (transferStep schedule source) (Undivided schedule) st calls := by
    induction calls generalizing st with
    | nil => exact Iff.rfl
    | cons call rest ih =>
      rw [transferStep_permitted_cons, transferStep_permitted_cons,
        callAccounts_iff st (valid call (List.mem_cons_self ..)),
        ih _ fun other member => valid other (List.mem_cons_of_mem _ member)]
  rw [each]
  refine ⟨And.left, ?_⟩
  intro permitted
  exact ⟨permitted, nothingLost_of_undivided valid permitted⟩

/-- Two elements of two bytes, of which the kernel moves three bytes at first and then no more. -/
def shortTransfer (calls : ℕ) : Transfer := if calls = 0 then .moved 3 else .ended

/-- A fresh stream on a descriptor that nothing was moved through. -/
def freshTransfers : Stream Transferred := ⟨fdopen 3, 0, 0, []⟩

/-- A read of three of four bytes returns one element, and the third byte is in no element. The same count makes
`fwrite` report one element after three bytes were accepted. -/
theorem short_transfer_lost :
    ¬ CallAccounts shortTransfer (fun index => BitVec.ofNat 8 index) freshTransfers (.fread 2 2) ∧
      ¬ NothingLost shortTransfer (fun index => BitVec.ofNat 8 index) freshTransfers [.fread 2 2] ∧
      ¬ CallAccounts shortTransfer (fun _ => 0) freshTransfers (.fwrite [65, 66, 67, 68] 2 2) ∧
      ¬ NothingLost shortTransfer (fun _ => 0) freshTransfers [.fwrite [65, 66, 67, 68] 2 2] := by
  have divided {call : TransferCall} (four : call.total = 4) : ¬ Undivided shortTransfer freshTransfers call := by
    rintro (trouble | ⟨whole, -⟩)
    · exact trouble
    · rw [four] at whole
      exact absurd whole (by decide)
  have reads : (TransferCall.fread 2 2).Valid := ⟨by decide, by decide, by decide, trivial⟩
  have writes : (TransferCall.fwrite [65, 66, 67, 68] 2 2).Valid :=
    ⟨by decide, by decide, by decide, Nat.le_refl 4⟩
  refine ⟨?_, ?_, ?_, ?_⟩
  · rw [callAccounts_iff freshTransfers reads]
    exact divided rfl
  · rintro ⟨consumed, -, -⟩
    exact absurd consumed (by decide)
  · rw [callAccounts_iff freshTransfers writes]
    exact divided rfl
  · rintro ⟨-, -, accepted⟩
    exact absurd accepted (by decide)

/-- A read that the kernel answers as a whole, and one that it answers with an end of file. -/
theorem transfers_account_whole :
    Permitted (transferStep (fun calls => if calls = 0 then .moved 4 else .ended) fun _ => 7)
        (CallAccounts (fun calls => if calls = 0 then .moved 4 else .ended) fun _ => 7) freshTransfers
        [.fread 2 2, .fread 2 2] ∧
      NothingLost (fun calls => if calls = 0 then .moved 4 else .ended) (fun _ => 7) freshTransfers
        [.fread 2 2, .fread 2 2] := by
  refine (transfers_account_iff _ _ _ _ ?_).mpr ?_
  · intro call member
    obtain rfl : call = .fread 2 2 := by simpa using member
    exact ⟨by decide, by decide, by decide, trivial⟩
  · rw [transferStep_permitted_cons, transferStep_permitted_cons]
    exact ⟨.inr ⟨by decide, by decide⟩, .inl trivial, trivial⟩

end Runs

end CLite
