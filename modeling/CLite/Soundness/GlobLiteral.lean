import CLite.Proofs.FnmatchTokens
import CLite.Proofs.GlobSplit

/-! # The literal fast path of `glob`

On a component without metacharacters `glob` compares names with the unescaped text instead of calling
`fnmatch`. The scanners agree on escapes, so the token sequence of such a component spells its unescaped
text; `fnmatch` compares literals as plain characters with unsigned ones, so the two paths agree exactly
on ASCII text.
-/

namespace CLite

variable {noescape : Bool} {c : CString} {tokens : List Token}

/-- The tokens are literals that spell the text. -/
def Spells (tokens : List Token) (text : CString) : Prop :=
  List.Forall₂ (fun token x => ∃ escaped, token = .lit escaped x) tokens text

/-- A spelling without a bare metacharacter is a sequence of literals. -/
theorem Spelling.literals {chars : List (Bool × CChar)} (spelling : Spelling noescape c chars)
    (bare : ¬ ∃ x, (false, x) ∈ chars ∧ Special x) :
    Tokens noescape c (chars.map fun char => .lit char.1 char.2) := by
  induction spelling with
  | nil => exact .nil
  | escaped escapes _ ih =>
    refine .escape escapes (ih ?_)
    rintro ⟨x, member, special⟩
    exact bare ⟨x, List.mem_cons_of_mem _ member, special⟩
  | @plain x rest chars unescaping _ ih =>
    refine .literal (fun special => bare ⟨x, List.mem_cons_self .., special⟩) unescaping (ih ?_)
    rintro ⟨y, member, special⟩
    exact bare ⟨y, List.mem_cons_of_mem _ member, special⟩

theorem tokens_of_no_meta (literal : globHasMeta noescape c = false) :
    ∃ tokens, Tokens noescape c tokens ∧ Spells tokens (globUnescape noescape c) := by
  obtain ⟨chars, spelling⟩ := exists_spelling noescape c
  refine ⟨_, spelling.literals ?_, ?_⟩
  · rw [← spelling.hasMeta_iff, literal]
    exact Bool.false_ne_true
  · rw [spelling.unescape, Spells, List.forall₂_map_left_iff, List.forall₂_map_right_iff, List.forall₂_same]
    exact fun char _ => ⟨char.1, rfl⟩

/-- A sequence of literals accepts its text, provided the text is ASCII. -/
theorem Spells.accepts_iff {text string : CString} (spells : Spells tokens text)
    (pathname period start : Bool) :
    Accepts pathname period start tokens string ↔ string = text ∧ ∀ x ∈ text, x.Ascii := by
  induction spells generalizing start string with
  | nil => simp [Accepts]
  | cons head _ ih =>
    next token x tokens text _ =>
    obtain ⟨escaped, rfl⟩ := head
    simp only [Accepts, ih, List.mem_cons, forall_eq_or_imp]
    constructor
    · rintro ⟨rest, rfl, ascii, rfl, all⟩
      exact ⟨rfl, ascii, all⟩
    · rintro ⟨rfl, ascii, all⟩
      exact ⟨text, rfl, ascii, rfl, all⟩

theorem ascii_globUnescape (noescape : Bool) (c : CString) :
    (∀ x ∈ globUnescape noescape c, x.Ascii) ↔ ∀ x ∈ c, x.Ascii := by
  fun_induction globUnescape noescape c with
  | case1 | case2 => rfl
  | case3 x y s escape ih =>
    have backslash : x.Ascii := by
      rw [escape.1]
      decide
    simp [ih, backslash]
  | case4 x y s unescaped ih => simp only [List.mem_cons, forall_eq_or_imp] at ih ⊢; rw [ih]

/-- The flags that `glob` passes to `fnmatch` when it is not asked to match leading periods. -/
def literalFlags (noescape : Bool) : BitVec 32 := FNM_PERIOD ||| if noescape then FNM_NOESCAPE else 0

/-- On a component without metacharacters, `fnmatch` and comparison with the unescaped text agree on
every name exactly when the component is ASCII. -/
theorem literal_fast_path_iff (noescape : Bool) (c : CString) (literal : globHasMeta noescape c = false) :
    (∀ s, fnmatch c s (literalFlags noescape) = 0 ↔ s = globUnescape noescape c) ↔
      ∀ x ∈ c, x.Ascii := by
  obtain ⟨tokens, grammar, spells⟩ := tokens_of_no_meta literal
  have escapes : hasFlag (literalFlags noescape) FNM_NOESCAPE = noescape := by
    cases noescape <;> decide
  have agrees : Agrees (literalFlags noescape) c tokens := fnmatchLoop_accepts (by rwa [escapes])
  simp only [fnmatch, agrees true _, spells.accepts_iff, ascii_globUnescape]
  constructor
  · exact fun agree => ((agree _).mpr rfl).2
  · exact fun ascii s => ⟨And.left, fun same => ⟨same, ascii⟩⟩

theorem literal_fast_path_iff_escape :
    fnmatch [chr '\\', chr '*'] [chr '*'] (literalFlags false) = 0 ∧
      fnmatch [chr '\\', chr '*'] [chr 'a'] (literalFlags false) ≠ 0 := by
  have agree := (literal_fast_path_iff false [chr '\\', chr '*'] (by decide)).mpr (by decide)
  exact ⟨(agree [chr '*']).mpr (by decide), fun matched => absurd ((agree [chr 'a']).mp matched) (by decide)⟩

/-- The byte 195 stands for itself in the fast path, but `fnmatch` does not match it with itself. -/
theorem literal_fast_path_high_byte :
    globHasMeta false [⟨195, by decide⟩] = false ∧
      ¬ (fnmatch [⟨195, by decide⟩] [⟨195, by decide⟩] (literalFlags false) = 0 ↔
        [⟨195, by decide⟩] = globUnescape false [⟨195, by decide⟩]) := by
  decide +kernel

end CLite
