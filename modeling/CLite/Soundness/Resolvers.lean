import CLite.Proofs.InetText

/-! # The two resolvers

`getaddrinfo` and `gethostbyname` both try the numeric parser first. For the name `localhost` the one
answers with a constant and the other asks the numeric parser for `127.0.0.1`, which it rejects.
-/

namespace CLite

variable {node : CString}

/-- Both find the node, with the same address, or neither does. -/
def ResolversAgree (node : CString) : Prop :=
  ((getaddrinfo true node).1 = 0 ↔ (gethostbyname node).isSome) ∧
    ∀ host, gethostbyname node = some host →
      ∃ info, getaddrinfo true node = (0, some info) ∧ info.sinAddr = host.addr

theorem inetAton_localhost : inetAton localhost = none := by decide

theorem inetAton_loopbackText : inetAton loopbackText = none := by decide

theorem getaddrinfo_localhost : getaddrinfo true localhost = (EAI_NONAME, none) := by
  rw [getaddrinfo, inetAton_localhost]
  dsimp only
  rw [if_pos rfl, getaddrinfo, inetAton_loopbackText]
  rfl

/-- Every name but `localhost` is left to the numeric parser by both. -/
theorem resolversAgree_of_ne (other : node ≠ localhost) : ResolversAgree node := by
  rw [ResolversAgree, getaddrinfo, gethostbyname]
  cases inetAton node with
  | none => simp [other, EAI_NONAME]
  | some addr =>
    refine ⟨by simp, ?_⟩
    rintro host found
    cases found
    exact ⟨_, rfl, rfl⟩

theorem not_resolversAgree_localhost : ¬ ResolversAgree localhost := by
  rintro ⟨found, -⟩
  rw [getaddrinfo_localhost, gethostbyname, inetAton_localhost] at found
  exact absurd (found.mpr rfl) (by decide)

/-- The resolvers agree exactly on the names other than `localhost`. -/
theorem resolvers_agree_iff (node : CString) : ResolversAgree node ↔ node ≠ localhost := by
  refine ⟨?_, resolversAgree_of_ne⟩
  rintro agree rfl
  exact not_resolversAgree_localhost agree

/-- `localhost` is known to `gethostbyname` and not to `getaddrinfo`. -/
theorem localhost_disagrees :
    (gethostbyname localhost).map Hostent.addr = some (htonl INADDR_LOOPBACK) ∧
      getaddrinfo true localhost = (EAI_NONAME, none) ∧ ¬ ResolversAgree localhost := by
  refine ⟨by rw [gethostbyname, inetAton_localhost]; rfl, getaddrinfo_localhost,
    not_resolversAgree_localhost⟩

end CLite
