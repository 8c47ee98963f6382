import CLite.Proofs.EnvEntries
import CLite.Proofs.HeapRuns
import CLite.Soundness.HeapInvariant

/-! # The environment is a map

Every call returns and acts on the answers of `getenv` as an update of a map, whichever calls of `malloc`
fail. Two kinds of calls are apart. `putenv` of a string that is itself an entry hides that entry from
`setenv`, which then appends a second entry of the same name. An entry or an array so large that the sums of `malloc`
leave the address space is written past the block that `malloc` gives.
-/

namespace CLite

open ByteMemory KeyedArray

section Requests

/-- The call of `malloc` returns, and what it gives has the room. -/
def MallocCall.Answers (call : MallocCall) (size : ℕ) : Prop :=
  call.allocate size = some true ∨ call.allocate size = some false

/-- The heap is one that the allocator keeps, and the sums that `malloc` forms stay in the address space. -/
def MallocCall.Safe (call : MallocCall) (size : ℕ) : Prop :=
  (∃ arena, Represents call.heap arena) ∧ size < 2 ^ 32 ∧ SafeRequest call.kernel call.heap size

theorem MallocCall.Safe.answers {call : MallocCall} {size : ℕ} (safe : call.Safe size) : call.Answers size := by
  obtain ⟨⟨arena, represents⟩, bound, request⟩ := safe
  obtain ⟨ptr, heap, after, returned, represents', allocates, -⟩ := malloc_refines represents request
  rw [← wrap_of_lt bound] at returned
  rcases eq_or_ne ptr 0 with null | served
  · exact .inr (by rw [MallocCall.allocate, returned]; exact if_pos null)
  · left
    obtain ⟨lower, granted, large, busy⟩ := allocates.granted served
    have inside := (after.bounds busy).2
    have request := le_rounded size
    have room : ¬ heap.room ptr < size := by
      simp only [Heap.room, represents'.blockSize lower busy, represents'.brk]
      dsimp only at inside
      omega
    rw [MallocCall.allocate, returned]
    dsimp only
    rw [if_neg served, if_neg room]

/-- On an empty heap, a request just below the end of the address space is served with a block at the break that has
no room. -/
example : (MallocCall.mk granting ⟨fun _ => 0, 0, 4096⟩).allocate (2 ^ 32 - 16) = none := rfl

end Requests

section Updates

variable {st next : Environ}

/-- New objects change no entry. -/
theorem text_append (valid : st.Valid) {more : Objects} (objects : next.objects = st.objects ++ more)
    {entry : Pointer} (member : entry ∈ st.entries) : textAt next.objects entry = textAt st.objects entry := by
  rw [objects, textAt, bytesAt_append (object_lt_of_mem (valid.form entry member).1), textAt]

theorem names_append (valid : st.Valid) {more : Objects} (objects : next.objects = st.objects ++ more) :
    ∀ entry ∈ st.entries, next.name entry = st.name entry := fun _ member =>
  congrArg nameOf (text_append valid objects member)

theorem valid_append (valid : st.Valid) {more : Objects} (objects : next.objects = st.objects ++ more)
    (entries : next.entries = st.entries) : next.Valid := by
  refine ⟨?_, ?_⟩
  · intro entry member
    rw [entries] at member
    rw [names_append valid objects entry member, text_append valid objects member]
    exact valid.form entry member
  · rw [entries, List.map_congr_left (names_append valid objects)]
    exact valid.distinct

/-- The old entries answer as before. -/
theorem answer_old_entries (valid : st.Valid) {more : Objects} (objects : next.objects = st.objects ++ more)
    {name : List Byte} (validName : ValidName name) :
    (lookup next.name st.entries name).map (fun entry => valueOf (textAt next.objects entry)) =
      st.answer name := by
  rw [answer_eq_lookup valid validName, lookup_congr (names_append valid objects)]
  cases found : lookup st.name st.entries name with
  | none => rfl
  | some entry => simp [text_append valid objects (mem_of_lookup found).1]

theorem answer_append (valid : st.Valid) {more : Objects} (objects : next.objects = st.objects ++ more)
    (entries : next.entries = st.entries) {name : List Byte} (validName : ValidName name) :
    next.answer name = st.answer name := by
  rw [answer_eq_lookup (valid_append valid objects entries) validName, entries]
  exact answer_old_entries valid objects validName

end Updates

section Store

/-- The entries after `setenv`: the entry that the test finds is replaced, or the new one is appended. -/
def storeEntry (found : Pointer → Bool) (entry : Pointer) (entries : List Pointer) : List Pointer :=
  if entries.any found then entries.replaceF fun other => if found other then some entry else none
  else entries ++ [entry]

theorem storeEntry_eq {key : Pointer → List Byte} {found : Pointer → Bool} {entry : Pointer}
    {entries : List Pointer} (tests : ∀ other ∈ entries, found other = decide (key other = key entry)) :
    storeEntry found entry entries =
      if key entry ∈ entries.map key then replace key entry entries else entries ++ [entry] := by
  have any : entries.any found = true ↔ key entry ∈ entries.map key := by
    rw [List.any_eq_true, List.mem_map]
    refine exists_congr fun other => and_congr_right fun member => ?_
    rw [tests other member, decide_eq_true_eq]
  have replaced : (entries.replaceF fun other => if found other then some entry else none) =
      replace key entry entries := by
    clear any
    induction entries with
    | nil => rfl
    | cons other rest ih =>
      have later := ih fun other member => tests other (List.mem_cons_of_mem _ member)
      have here := tests other (List.mem_cons_self ..)
      rw [replace_cons, ← later]
      by_cases same : key other = key entry <;> simp [here, same]
  rw [storeEntry, replaced]
  simp only [any]

variable {st next : Environ} {name value : List Byte}

/-- `malloc` returns for the entry, and for the array if there has to be a longer one; what it gives has the room. -/
def ServesStore (schedule : MallocSchedule) (st : Environ) (name value : List Byte) : Prop :=
  (schedule st.mallocs).Answers (name.length + value.length + 2) ∧
    (st.entries.any (entryMatches (st.objects ++ [name ++ equalsSign :: value ++ [0]]) name) = false →
      (schedule (st.mallocs + 1)).Answers st.arraySize)

/-- A stored entry updates the answer for its name. -/
theorem storeEntry_answers (valid : st.Valid) (validName : ValidName name) (nonzero : 0 ∉ value)
    {found : Pointer → Bool} (tests : ∀ entry ∈ st.entries, found entry = entryMatches st.objects name entry)
    (objects : next.objects = st.objects ++ [name ++ equalsSign :: value ++ [0]])
    (entries : next.entries = storeEntry found ⟨st.objects.length, 0⟩ st.entries) :
    next.Valid ∧ ∀ asked, ValidName asked →
      next.answer asked = Function.update st.answer name (some value) asked := by
  have text : textAt next.objects ⟨st.objects.length, 0⟩ = name ++ equalsSign :: value := by
    rw [objects]
    apply textAt_new_entry
    simpa [equalsSign] using And.intro validName.2.2 nonzero
  generalize (⟨st.objects.length, 0⟩ : Pointer) = entry at entries text
  have own : next.name entry = name := by rw [Environ.name, text, nameOf_append validName.2.1]
  have names := names_append valid objects
  have distinct : (st.entries.map next.name).Nodup := by
    rw [List.map_congr_left names]
    exact valid.distinct
  have byName : ∀ other ∈ st.entries, found other = decide (next.name other = next.name entry) := by
    intro other member
    rw [tests other member, Bool.eq_iff_iff, entryMatches_iff_name validName (valid.form other member).1,
      decide_eq_true_eq, own, names other member, Environ.name]
  rw [storeEntry_eq byName] at entries
  -- Replacing and appending make the same change to the map, and both keep the names distinct.
  obtain ⟨kept, updated, members⟩ : (next.entries.map next.name).Nodup ∧
      lookup next.name next.entries =
        Function.update (lookup next.name st.entries) (next.name entry) (some entry) ∧
      ∀ other ∈ next.entries, other = entry ∨ other ∈ st.entries := by
    rw [entries]
    split
    next present =>
      exact ⟨by rwa [keys_replace], lookup_replace entry present, fun other => mem_replace⟩
    next absent =>
      exact ⟨nodup_append entry distinct absent, lookup_append entry absent, fun other member => by
        simpa [or_comm] using member⟩
  have nextValid : next.Valid := by
    refine ⟨?_, kept⟩
    intro other member
    rcases members other member with rfl | old
    · rw [own, text]
      exact ⟨by simp, validName.1⟩
    · rw [names other old, text_append valid objects old]
      exact valid.form other old
  refine ⟨nextValid, ?_⟩
  intro asked validAsked
  rw [answer_eq_lookup nextValid validAsked, updated, own]
  by_cases same : asked = name
  · subst same
    simp [text, valueOf_append validName.2.1]
  · rw [Function.update_of_ne same, Function.update_of_ne same]
    exact answer_old_entries valid objects validAsked

/-- `setenv` behind its checks: it stores an entry, or a `malloc` fails and the entries stay. -/
theorem setenvStore_cases {schedule : MallocSchedule} (served : ServesStore schedule st name value) :
    ∃ ret next, setenvStore schedule st name value = some (ret, next) ∧
      (ret = 0 ∧ next.objects = st.objects ++ [name ++ equalsSign :: value ++ [0]] ∧
          next.entries =
            storeEntry (entryMatches next.objects name) ⟨st.objects.length, 0⟩ st.entries ∨
        ret = -1 ∧ next.entries = st.entries ∧ (∃ more, next.objects = st.objects ++ more) ∧
          MallocFailed schedule st next (name.length + value.length + 2)) := by
  obtain ⟨entry, array⟩ := served
  rcases st with ⟨objects, environ, mallocs⟩
  generalize stored : objects ++ [name ++ equalsSign :: value ++ [0]] = objects' at array ⊢
  dsimp only at entry array
  rcases entry with given | refused
  case inr =>
    refine ⟨-1, ⟨objects, environ, mallocs + 1⟩, ?_,
      .inr ⟨rfl, rfl, ⟨[], (List.append_nil _).symm⟩, .inl ⟨rfl, refused⟩⟩⟩
    simp only [setenvStore, refused]
  cases environ with
  | none =>
    rcases array rfl with given' | refused
    · refine ⟨0, ⟨objects', some [⟨objects.length, 0⟩], mallocs + 2⟩, ?_, .inl ⟨rfl, rfl, rfl⟩⟩
      change (schedule (mallocs + 1)).allocate (pointerSize * 2) = some true at given'
      simp only [setenvStore, given, given', stored]
    · refine ⟨-1, ⟨objects', none, mallocs + 2⟩, ?_, .inr ⟨rfl, rfl, ⟨_, stored.symm⟩, .inr ⟨rfl, refused⟩⟩⟩
      change (schedule (mallocs + 1)).allocate (pointerSize * 2) = some false at refused
      simp only [setenvStore, given, refused, stored]
  | some entries =>
    cases present : entries.any (entryMatches objects' name) with
    | true =>
      refine ⟨0, ⟨objects', some (entries.replaceF fun other =>
        if entryMatches objects' name other then some ⟨objects.length, 0⟩ else none), mallocs + 1⟩, ?_,
          .inl ⟨rfl, rfl, (if_pos present).symm⟩⟩
      simp only [setenvStore, given, stored, if_pos present]
    | false =>
      have absent := ne_of_eq_of_ne present Bool.false_ne_true
      rcases array present with given' | refused
      · refine ⟨0, ⟨objects', some (entries ++ [⟨objects.length, 0⟩]), mallocs + 2⟩, ?_,
          .inl ⟨rfl, rfl, (if_neg absent).symm⟩⟩
        change (schedule (mallocs + 1)).allocate (pointerSize * (entries.length + 2)) = some true at given'
        simp only [setenvStore, given, stored, if_neg absent, given']
      · refine ⟨-1, ⟨objects', some entries, mallocs + 2⟩, ?_,
          .inr ⟨rfl, rfl, ⟨_, stored.symm⟩, .inr ⟨rfl, refused⟩⟩⟩
        change (schedule (mallocs + 1)).allocate (pointerSize * (entries.length + 2)) = some false at refused
        simp only [setenvStore, given, stored, if_neg absent, refused]

end Store

section Calls

/-- The check at the start of `setenv` and `unsetenv`. -/
theorem ValidName.accepted {name : List Byte} (validName : ValidName name) :
    ¬(name = [] ∨ equalsSign ∈ name) :=
  not_or.mpr ⟨validName.1, validName.2.1⟩

variable (schedule : MallocSchedule) {map : EnvMap} {st : Environ}

theorem getenv_text {name : Pointer} (nonempty : textAt st.objects name ≠ []) :
    (getenv st name).map (textAt st.objects) = st.answer (textAt st.objects name) := by
  rcases st with ⟨objects, environ, mallocs⟩
  cases environ with
  | none => rfl
  | some entries =>
    simp only [getenv, if_neg nonempty]
    rfl

theorem getenv_isSome_iff (valid : st.Valid) {name : Pointer} (validName : ValidName (textAt st.objects name)) :
    (getenv st name).isSome ↔ textAt st.objects name ∈ st.entries.map st.name := by
  rw [← Option.isSome_map (f := textAt st.objects), getenv_text validName.1, answer_eq_lookup valid validName,
    Option.isSome_map, ← not_iff_not, ← lookup_eq_none_iff, Option.not_isSome_iff_eq_none]

/-- The entry that a call makes, and the array if it has to be a longer one, are safe to ask for. -/
def RequestsSafe (st : Environ) (call : EnvCall) (name : List Byte) : Prop :=
  (schedule st.mallocs).Safe (call.entrySize st.objects) ∧
    (name ∉ st.entries.map st.name → (schedule (st.mallocs + 1)).Safe st.arraySize)

theorem RequestsSafe.serves {schedule : MallocSchedule} {call : EnvCall} {name value : List Byte} {objects : Objects}
    (safe : RequestsSafe schedule st call name) (valid : st.Valid) (validName : ValidName name)
    (size : call.entrySize st.objects = name.length + value.length + 2)
    (tests : ∀ entry ∈ st.entries, entryMatches (objects ++ [name ++ equalsSign :: value ++ [0]]) name entry =
      entryMatches st.objects name entry) :
    ServesStore schedule { st with objects := objects } name value := by
  obtain ⟨entry, array⟩ := safe
  refine ⟨size ▸ entry.answers, fun absent => (array fun present => ?_).answers⟩
  obtain ⟨entry, member, named⟩ := List.mem_map.mp present
  have found := (entryMatches_iff_name validName (valid.form entry member).1).mpr named
  rw [← tests entry member] at found
  exact Bool.false_ne_true (absent.symm.trans (List.any_eq_true.mpr ⟨entry, member, found⟩))

/-- An update of the answers is the same update of the map. -/
theorem Environ.Agrees.update {next : Environ} (agrees : st.Agrees map) {name : List Byte}
    {value : Option (List Byte)}
    (answers : ∀ asked, ValidName asked → next.answer asked = Function.update st.answer name value asked) :
    next.Agrees (Function.update map name value) := by
  intro asked validAsked
  rw [answers asked validAsked]
  by_cases same : asked = name
  · rw [same, Function.update_self, Function.update_self]
  · rw [Function.update_of_ne same, Function.update_of_ne same, agrees asked validAsked]

/-- A call that leaves the state alone and changes nothing in the map. -/
theorem callRefines_unchanged (valid : st.Valid) (agrees : st.Agrees map) {call : EnvCall} {reply : EnvReply}
    (returns : ReplyCorrect schedule map st st call reply)
    (same : ∀ name, ValidName name → map.after st.objects call reply name = map name) :
    CallRefines schedule map st call reply st where
  valid := valid
  agrees name validName := (agrees name validName).trans (same name validName).symm
  returns := returns
  unchanged _ _ _ := rfl
  others _ _ _ _ _ := rfl

/-- What storing an entry may lead to. -/
def StoreOutcome (st : Environ) (name value : List Byte) (ret : ℤ) (next : Environ) : Prop :=
  (ret = 0 ∧ ∀ asked, ValidName asked → next.answer asked = Function.update st.answer name (some value) asked) ∨
    (ret = -1 ∧ (∀ asked, ValidName asked → next.answer asked = st.answer asked) ∧
      MallocFailed schedule st next (name.length + value.length + 2))

/-- The calls that store an entry insert into the map. -/
theorem callRefines_stored (agrees : st.Agrees map) {name value : List Byte} {ret : ℤ} {next : Environ}
    (nextValid : next.Valid) (outcome : StoreOutcome schedule st name value ret next) {call : EnvCall}
    (named : call.name? st.objects = some name)
    (applied : map.apply st.objects call = Function.update map name (some value))
    (size : call.entrySize st.objects = name.length + value.length + 2)
    (returns : (EnvReply.status ret = .status 0 ∨ EnvReply.status ret = .status (-1) ∧
      MallocFailed schedule st next (call.entrySize st.objects)) →
        ReplyCorrect schedule map st next call (.status ret)) :
    CallRefines schedule map st call (.status ret) next := by
  rcases outcome with ⟨rfl, answers⟩ | ⟨rfl, answers, failed⟩
  · refine ⟨nextValid, ?_, returns (.inl rfl), by simp, ?_⟩
    · rw [EnvMap.after, if_neg (by simp), applied]
      exact agrees.update answers
    · intro own isOwn asked validAsked differs
      obtain rfl : name = own := Option.some.inj (named.symm.trans isOwn)
      rw [answers asked validAsked, Function.update_of_ne differs]
  · refine ⟨nextValid, ?_, returns (.inr ⟨rfl, by rwa [size]⟩), fun _ => answers, ?_⟩
    · intro asked validAsked
      rw [answers asked validAsked, EnvMap.after, if_pos rfl, agrees asked validAsked]
    · intro own isOwn asked validAsked differs
      exact answers asked validAsked

theorem setenv_refines (valid : st.Valid) (agrees : st.Agrees map) {name : Pointer} {value : Option Pointer}
    {overwrite : Bool} (validName : ValidName (textAt st.objects name))
    (safe : overwrite = true ∨ textAt st.objects name ∉ st.entries.map st.name →
      RequestsSafe schedule st (.setenv name value overwrite) (textAt st.objects name)) :
    ∃ reply next, execEnv schedule st (.setenv name value overwrite) = some (reply, next) ∧
      CallRefines schedule map st (.setenv name value overwrite) reply next := by
  have answered : (getenv st name).isSome ↔ map (textAt st.objects name) ≠ none := by
    rw [← agrees _ validName, ← getenv_text validName.1]
    cases getenv st name <;> simp
  by_cases kept : (getenv st name).isSome ∧ overwrite = false
  · have unmoved : map.apply st.objects (.setenv name value overwrite) = map :=
      if_pos ⟨kept.2, answered.mp kept.1⟩
    refine ⟨.status 0, st, ?_, ?_⟩
    · simp only [execEnv, setenv, if_neg validName.accepted, if_pos kept, Option.map_some]
    · refine callRefines_unchanged schedule valid agrees (Or.inl rfl) ?_
      intro asked _
      rw [EnvMap.after, if_neg (by simp), unmoved]
  · have tests (more : Objects) : ∀ entry ∈ st.entries,
        entryMatches (st.objects ++ more) (textAt st.objects name) entry =
          entryMatches st.objects (textAt st.objects name) entry := by
      intro entry member
      rw [entryMatches, bytesAt_append (object_lt_of_mem (valid.form entry member).1), entryMatches]
    have needed : overwrite = true ∨ textAt st.objects name ∉ st.entries.map st.name := by
      rw [← getenv_isSome_iff valid validName]
      cases overwrite <;> simp_all
    have serves : ServesStore schedule st (textAt st.objects name) ((value.map (textAt st.objects)).getD []) :=
      (safe needed).serves valid validName rfl (tests _)
    obtain ⟨ret, next, stored, outcome⟩ := setenvStore_cases serves
    have nonzero : 0 ∉ (value.map (textAt st.objects)).getD [] := by
      cases value with
      | none => simp
      | some value => exact zero_notMem_textAt st.objects value
    have applied : map.apply st.objects (.setenv name value overwrite) =
        Function.update map (textAt st.objects name) (some ((value.map (textAt st.objects)).getD [])) :=
      if_neg fun both => kept ⟨answered.mpr both.2, both.1⟩
    refine ⟨.status ret, next, by simp only [execEnv, setenv, if_neg validName.accepted, if_neg kept, stored,
      Option.map_some], ?_⟩
    rcases outcome with ⟨rfl, objects, entries⟩ | ⟨rfl, entries, ⟨more, objects⟩, failed⟩
    · rw [objects] at entries
      obtain ⟨nextValid, answers⟩ := storeEntry_answers valid validName nonzero (tests _) objects entries
      exact callRefines_stored schedule agrees nextValid (.inl ⟨rfl, answers⟩) rfl applied rfl id
    · exact callRefines_stored schedule agrees (valid_append valid objects entries)
        (.inr ⟨rfl, fun _ validAsked => answer_append valid objects entries validAsked, failed⟩) rfl applied rfl
        id

end Calls

section Putenv

variable {objects : Objects} {string : Pointer}

theorem textAt_hidden_name (form : equalsSign ∈ textAt objects string) :
    textAt (poke objects (string.add (nameOf (textAt objects string)).length) 0) string =
      nameOf (textAt objects string) := by
  obtain ⟨rest, whole⟩ : textAt objects string <+: bytesAt objects string := List.takeWhile_prefix _
  have nonzero : 0 ∉ nameOf (textAt objects string) := fun member =>
    zero_notMem_textAt objects string ((List.takeWhile_prefix _).subset member)
  rw [textAt, bytesAt_poke, if_pos (by rfl)]
  simp only [Pointer.add]
  rw [← List.set_drop]
  show ((bytesAt objects string).set _ 0).takeWhile _ = _
  rw [← whole]
  conv_lhs => rw [text_split form, nameOf_append (equalsSign_notMem_nameOf _)]
  rw [List.append_assoc, List.set_append_right _ _ le_rfl, Nat.sub_self, List.cons_append, List.set_cons_zero,
    List.takeWhile_append_of_pos (all_ne_of_notMem nonzero)]
  simp

theorem textAt_hidden_value (form : equalsSign ∈ textAt objects string) :
    textAt (poke objects (string.add (nameOf (textAt objects string)).length) 0)
        ((string.add (nameOf (textAt objects string)).length).add 1) =
      valueOf (textAt objects string) := by
  have within : (nameOf (textAt objects string)).length + 1 ≤ (textAt objects string).length := by
    conv_rhs => rw [text_split form]
    simp
  have same : textAt (poke objects (string.add (nameOf (textAt objects string)).length) 0)
      ((string.add (nameOf (textAt objects string)).length).add 1) =
        textAt objects (string.add ((nameOf (textAt objects string)).length + 1)) := by
    rw [textAt, bytesAt_poke, if_pos (by rfl), List.drop_set_of_lt (by simp [Pointer.add])]
    rfl
  rw [same, textAt_add within]
  conv_lhs => rw [text_split form, nameOf_append (equalsSign_notMem_nameOf _)]
  simp [List.drop_append]

/-- The test of the entries while `putenv` runs, for a string that is not one of them. -/
theorem entryMatches_putenv {st : Environ} (valid : st.Valid)
    (form : equalsSign ∈ textAt st.objects string) (nonzero : 0 ∉ nameOf (textAt st.objects string))
    (apart : string ∉ st.entries) (more : Objects) :
    ∀ entry ∈ st.entries,
      entryMatches (poke st.objects (string.add (nameOf (textAt st.objects string)).length) 0 ++ more)
          (nameOf (textAt st.objects string)) entry =
        entryMatches st.objects (nameOf (textAt st.objects string)) entry := by
  intro entry member
  have inside : entry.object <
      (poke st.objects (string.add (nameOf (textAt st.objects string)).length) 0).length := by
    rw [poke_length]
    exact object_lt_of_mem (valid.form entry member).1
  have other : entry ≠ string := fun same => apart (same ▸ member)
  rw [← entryMatches_hidden form nonzero other, entryMatches, bytesAt_append inside, entryMatches]

theorem putenv_refines (schedule : MallocSchedule) {map : EnvMap} {st : Environ} (valid : st.Valid)
    (agrees : st.Agrees map) (form : equalsSign ∈ textAt st.objects string)
    (validName : ValidName (nameOf (textAt st.objects string)))
    (safe : RequestsSafe schedule st (.putenv string) (nameOf (textAt st.objects string)))
    (apart : string ∉ st.entries) :
    ∃ reply next, execEnv schedule st (.putenv string) = some (reply, next) ∧
      CallRefines schedule map st (.putenv string) reply next := by
  have hiddenName := textAt_hidden_name form
  have hiddenValue := textAt_hidden_value form
  have tests := entryMatches_putenv valid form validName.2.2 apart
  have length := congrArg List.length (text_split form)
  have inside : string.object < st.objects.length := object_lt_of_mem form
  have nonzero : 0 ∉ valueOf (textAt st.objects string) := by
    rw [← hiddenValue]
    exact zero_notMem_textAt _ _
  have held := byte_at_sign form
  have applied : map.apply st.objects (.putenv string) =
      Function.update map (nameOf (textAt st.objects string)) (some (valueOf (textAt st.objects string))) := rfl
  have named : EnvCall.name? st.objects (.putenv string) = some (nameOf (textAt st.objects string)) := rfl
  have run : execEnv schedule st (.putenv string) =
      (setenvStore schedule
        { st with objects := poke st.objects (string.add (nameOf (textAt st.objects string)).length) 0 }
        (nameOf (textAt st.objects string)) (valueOf (textAt st.objects string))).map fun stored =>
          (.status stored.1, { stored.2 with
            objects :=
              poke stored.2.objects (string.add (nameOf (textAt st.objects string)).length) equalsSign }) := by
    simp only [execEnv, putenv, form, not_true_eq_false, if_false, idxOf_equalsSign form, setenv, hiddenName,
      validName.accepted, Bool.true_eq_false, and_false, Option.map_some, Option.getD_some, hiddenValue]
    cases setenvStore .. <;> rfl
  have size : EnvCall.entrySize st.objects (.putenv string) =
      (nameOf (textAt st.objects string)).length + (valueOf (textAt st.objects string)).length + 2 := by
    rw [EnvCall.entrySize, length, List.length_append, List.length_cons]
    omega
  generalize nameOf (textAt st.objects string) = name at *
  generalize valueOf (textAt st.objects string) = value at *
  obtain ⟨ret, next, stored, outcome⟩ := setenvStore_cases (safe.serves valid validName size (tests _))
  rw [stored, Option.map_some] at run
  refine ⟨_, _, run, ?_⟩
  rcases outcome with ⟨rfl, objects, entries⟩ | ⟨rfl, entries, ⟨more, objects⟩, failed⟩
  · rw [objects, poke_length] at entries
    have restored : ({ next with objects := poke next.objects (string.add name.length) equalsSign } :
        Environ).objects = st.objects ++ [name ++ equalsSign :: value ++ [0]] := by
      simp only [objects]
      exact poke_restore inside held
    obtain ⟨nextValid, answers⟩ := storeEntry_answers valid validName nonzero (tests _) restored entries
    exact callRefines_stored schedule agrees nextValid (.inl ⟨rfl, answers⟩) named applied size id
  · have restored : ({ next with objects := poke next.objects (string.add name.length) equalsSign } :
        Environ).objects = st.objects ++ more := by
      simp only [objects]
      exact poke_restore inside held
    exact callRefines_stored schedule agrees (valid_append valid restored entries)
      (.inr ⟨rfl, fun _ validAsked => answer_append valid restored entries validAsked, failed⟩) named applied size id

end Putenv

section Removal

variable (schedule : MallocSchedule) {map : EnvMap} {st : Environ}

/-- Removing the entry that the test finds deletes its name from the answers. -/
theorem eraseP_answers (valid : st.Valid) {name : List Byte} (validName : ValidName name) {next : Environ}
    (objects : next.objects = st.objects)
    (entries : next.entries = st.entries.eraseP (entryMatches st.objects name)) :
    next.Valid ∧ ∀ asked, ValidName asked → next.answer asked = Function.update st.answer name none asked := by
  have names : next.name = st.name := by
    funext entry
    rw [Environ.name, Environ.name, objects]
  have byName : st.entries.eraseP (entryMatches st.objects name) =
      st.entries.eraseP fun entry => st.name entry = name := by
    refine eraseP_congr fun entry member => ?_
    rw [Bool.eq_iff_iff, entryMatches_iff_name validName (valid.form entry member).1]
    exact decide_eq_true_iff.symm
  rw [byName] at entries
  have nextValid : next.Valid := by
    refine ⟨?_, ?_⟩
    · intro entry member
      rw [entries] at member
      rw [names, objects]
      exact valid.form entry (List.mem_of_mem_eraseP member)
    · rw [entries, names]
      exact nodup_eraseP _ valid.distinct
  refine ⟨nextValid, ?_⟩
  intro asked validAsked
  rw [answer_eq_lookup nextValid validAsked, entries, names, objects, lookup_eraseP name valid.distinct]
  by_cases same : asked = name
  · rw [same, Function.update_self, Function.update_self, Option.map_none]
  · rw [Function.update_of_ne same, Function.update_of_ne same, answer_eq_lookup valid validAsked]

theorem unsetenv_refines (valid : st.Valid) (agrees : st.Agrees map) {name : Pointer}
    (validName : ValidName (textAt st.objects name)) :
    ∃ reply next, execEnv schedule st (.unsetenv name) = some (reply, next) ∧
      CallRefines schedule map st (.unsetenv name) reply next := by
  cases there : st.environ with
  | none =>
    refine ⟨.status (-1), st, by simp only [execEnv, unsetenv, there], ?_⟩
    exact callRefines_unchanged schedule valid agrees (Or.inr ⟨rfl, there⟩) fun _ _ => rfl
  | some entries =>
    refine ⟨_, _, by simp only [execEnv, unsetenv, there, if_neg validName.accepted]; rfl, ?_⟩
    have own : st.entries = entries := by rw [Environ.entries, there, Option.getD_some]
    obtain ⟨nextValid, answers⟩ := eraseP_answers valid validName
      (show ({ st with environ := some (entries.eraseP (entryMatches st.objects (textAt st.objects name))) } :
        Environ).objects = st.objects from rfl) (by rw [own]; rfl)
    refine ⟨nextValid, ?_, Or.inl rfl, by simp, ?_⟩
    · rw [EnvMap.after, if_neg (by simp)]
      exact agrees.update answers
    · intro own isOwn asked validAsked differs
      obtain rfl : textAt st.objects name = own := Option.some.inj isOwn
      rw [answers asked validAsked, Function.update_of_ne differs]

theorem clearenv_refines :
    ∃ reply next, execEnv schedule st .clearenv = some (reply, next) ∧
      CallRefines schedule map st .clearenv reply next := by
  have none_left : (clearenv st).2.entries = [] := by
    cases there : st.environ <;> simp [clearenv, Environ.entries, there]
  refine ⟨.status 0, (clearenv st).2, rfl, ⟨?_, ?_⟩, ?_, Or.inl rfl, by simp, ?_⟩
  · simp [none_left]
  · simp [none_left]
  · intro asked _
    simp [Environ.answer, getenvLoop, none_left, EnvMap.after, EnvMap.apply]
  · intro own isOwn
    exact absurd isOwn (by simp [EnvCall.name?])

end Removal

section Runs

variable (schedule : MallocSchedule)

/-- The calls have valid names. -/
def ValidEnvCall (st : Environ) : EnvCall → Prop
  | .setenv name _ _ | .unsetenv name | .getenv name => ValidName (textAt st.objects name)
  | .putenv string => equalsSign ∈ textAt st.objects string ∧ ValidName (nameOf (textAt st.objects string))
  | .clearenv => True

/-- `putenv` is not given an entry of the environment, and what the calls ask `malloc` for is safe. -/
def ApartAndFits (st : Environ) : EnvCall → Prop
  | .setenv name value overwrite =>
    overwrite = true ∨ textAt st.objects name ∉ st.entries.map st.name →
      RequestsSafe schedule st (.setenv name value overwrite) (textAt st.objects name)
  | .putenv string =>
    string ∉ st.entries ∧ RequestsSafe schedule st (.putenv string) (nameOf (textAt st.objects string))
  | _ => True

instance (st : Environ) (call : EnvCall) : Decidable (ValidEnvCall st call) :=
  match call with
  | .setenv name _ _ | .unsetenv name | .getenv name =>
    inferInstanceAs (Decidable (ValidName (textAt st.objects name)))
  | .putenv _ => inferInstanceAs (Decidable (_ ∧ _))
  | .clearenv => inferInstanceAs (Decidable True)

def envStep (st : Environ) (call : EnvCall) : Option Environ := (execEnv schedule st call).map Prod.snd

/-- One call refines the call on the map. -/
theorem execEnv_refines {map : EnvMap} {st : Environ} (valid : st.Valid) (agrees : st.Agrees map)
    (call : EnvCall) (allowed : ValidEnvCall st call) (apart : ApartAndFits schedule st call) :
    ∃ reply next, execEnv schedule st call = some (reply, next) ∧
      CallRefines schedule map st call reply next := by
  cases call with
  | setenv name value overwrite => exact setenv_refines schedule valid agrees allowed apart
  | putenv string => exact putenv_refines schedule valid agrees allowed.1 allowed.2 apart.2 apart.1
  | unsetenv name => exact unsetenv_refines schedule valid agrees allowed
  | clearenv => exact clearenv_refines schedule
  | getenv name =>
    have validName : ValidName (textAt st.objects name) := allowed
    refine ⟨_, st, rfl, callRefines_unchanged schedule valid agrees ?_ ?_⟩
    · show EnvReply.string _ = .string _
      rw [getenv_text validName.1, agrees _ validName]
    · intro asked _
      simp [EnvMap.after, EnvMap.apply]

/-- Along every sequence of calls that keep apart, the environment is the map that the calls update. -/
theorem environ_refines_map (start : Environ) (valid : start.Valid) (calls : List EnvCall)
    (permitted : CallRun.Permitted (envStep schedule)
      (fun st call => ValidEnvCall st call ∧ ApartAndFits schedule st call) start calls) :
    EnvRefines schedule start.answer start calls := by
  suffices general : ∀ map : EnvMap, start.Agrees map → EnvRefines schedule map start calls from
    general start.answer fun _ _ => rfl
  -- The map is any that agrees on the valid names, since the calls never ask for others.
  induction calls generalizing start with
  | nil => exact fun _ _ => trivial
  | cons call rest ih =>
    intro map agrees
    obtain ⟨⟨allowed, apart⟩, later⟩ := permitted
    obtain ⟨reply, next, executed, refines⟩ := execEnv_refines schedule valid agrees call allowed apart
    have stepped : envStep schedule start call = some next := by rw [envStep, executed, Option.map_some]
    exact ⟨reply, next, executed, refines, ih next refines.valid (later next stepped) _ refines.agrees⟩

/-- The entry `A=1`, and the strings `AB`, `2`, `A=3` and `A`. -/
def oneVariable : Environ :=
  ⟨[[65, 61, 49, 0], [65, 66, 0], [50, 0], [65, 61, 51, 0], [65, 0]], some [⟨0, 0⟩], 0⟩

theorem oneVariable_valid : oneVariable.Valid := by
  refine ⟨?_, by decide⟩
  intro entry member
  obtain rfl : entry = ⟨0, 0⟩ := List.mem_singleton.mp member
  decide

/-- Every call of `malloc` meets an empty heap, and the kernel refuses the one with this number. -/
def refusedOnce (refused : ℕ) : MallocSchedule := fun index =>
  ⟨if index = refused then refusing else granting, (State.initial (fun _ => 0) 4096).heap⟩

theorem refusedOnce_safe {refused : ℕ} {st : Environ} {call : EnvCall} {name : List Byte}
    (entry : call.entrySize st.objects < 1024) (array : st.arraySize < 1024) :
    RequestsSafe (refusedOnce refused) st call name := by
  have safe (index : ℕ) {size : ℕ} (small : size < 1024) : (refusedOnce refused index).Safe size := by
    refine ⟨⟨_, (initial_tracks (fun _ => 0) (show 0 < 4096 by decide) (by decide) (by decide)).represents⟩,
      by omega, small_safe _ _ ?_⟩
    simp only [SmallRequest, rounded]
    omega
  exact ⟨safe _ entry, fun _ => safe _ array⟩

/-- A longer name is added and the shorter one is replaced, at the second attempt. -/
theorem environ_refines_map_names :
    EnvRefines (refusedOnce 2) oneVariable.answer oneVariable
      [.setenv ⟨1, 0⟩ (some ⟨2, 0⟩) true, .putenv ⟨3, 0⟩, .putenv ⟨3, 0⟩, .unsetenv ⟨1, 0⟩,
        .getenv ⟨4, 0⟩] := by
  apply environ_refines_map (refusedOnce 2) oneVariable oneVariable_valid
  refine .cons ⟨by decide, fun _ => refusedOnce_safe (by decide) (by decide)⟩ (show envStep _ _ _ =
    some ⟨oneVariable.objects ++ [[65, 66, 61, 50, 0]], some [⟨0, 0⟩, ⟨5, 0⟩], 2⟩ by rfl) ?_
  refine .cons ⟨by decide, by decide, refusedOnce_safe (by decide) (by decide)⟩ (show envStep _ _ _ =
    some ⟨oneVariable.objects ++ [[65, 66, 61, 50, 0]], some [⟨0, 0⟩, ⟨5, 0⟩], 3⟩ by rfl) ?_
  refine .cons ⟨by decide, by decide, refusedOnce_safe (by decide) (by decide)⟩ (show envStep _ _ _ =
    some ⟨oneVariable.objects ++ [[65, 66, 61, 50, 0], [65, 61, 51, 0]], some [⟨6, 0⟩, ⟨5, 0⟩], 4⟩
      by rfl) ?_
  refine .cons ⟨by decide, trivial⟩ (show envStep _ _ _ =
    some ⟨oneVariable.objects ++ [[65, 66, 61, 50, 0], [65, 61, 51, 0]], some [⟨6, 0⟩], 4⟩ by rfl) ?_
  exact ⟨⟨by decide, trivial⟩, fun _ _ => trivial⟩

/-- `putenv` of an entry makes a second entry of its name, with every block served. -/
theorem putenv_own_entry :
    CallRun.Permitted (envStep (refusedOnce 2)) ValidEnvCall oneVariable [.putenv ⟨0, 0⟩] ∧
      ¬EnvRefines (refusedOnce 2) oneVariable.answer oneVariable [.putenv ⟨0, 0⟩] := by
  refine ⟨⟨by decide, fun _ _ => trivial⟩, ?_⟩
  rintro ⟨reply, next, executed, refines, -⟩
  have twice : execEnv (refusedOnce 2) oneVariable (.putenv ⟨0, 0⟩) = some (.status 0,
      ⟨oneVariable.objects ++ [[65, 61, 49, 0]], some [⟨0, 0⟩, ⟨5, 0⟩], 2⟩) := by rfl
  obtain ⟨-, rfl⟩ := Prod.mk.inj (Option.some.inj (twice.symm.trans executed))
  exact absurd refines.valid.distinct (by decide)

end Runs

end CLite
