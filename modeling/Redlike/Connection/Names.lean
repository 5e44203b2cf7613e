import Redlike.Connection.Table

/-!
# Names of commands

`Command::name` is written apart from the decoder. Its rows are the decoder's own, in
capitals, except for the one of AUTH, which is a second GET.
-/
namespace Redlike.Command

open Resp

/-- `u8::to_ascii_uppercase`. -/
def toAsciiUppercase (b : UInt8) : UInt8 := if 97 ≤ b ∧ b ≤ 122 then b - 32 else b

theorem IsLetter.uppercase {b capital : UInt8} (hc : 65 ≤ capital ∧ capital ≤ 90)
    (h : IsLetter b capital) : toAsciiUppercase b = capital := by
  unfold toAsciiUppercase
  simp only [IsLetter, UInt8.le_iff_toNat_le, ← UInt8.toNat_inj] at hc h ⊢
  split
  · simp only [UInt8.toNat_add, UInt8.toNat_sub, UInt8.reduceToNat] at *
    omega
  · simp only [UInt8.toNat_add, UInt8.reduceToNat] at *
    omega

theorem Spells.uppercase {head : Bytes} {n : Name} (h : Spells head n) :
    head.map toAsciiUppercase = asBytes n.text := by
  have hc := n.capitals
  unfold Spells at h
  generalize asBytes n.text = capitals at h hc
  induction h with
  | nil => rfl
  | cons hb _ ih =>
    rw [List.map_cons, hb.uppercase (hc _ (by simp)), ih fun c hm => hc c (by simp [hm])]

/-- What decoding has found: the row of the table, and the arguments that fit it. -/
theorem tryFrom_ok_builds {head : Bytes} {argv : List Bytes} {c : Command}
    (h : tryFrom (request head argv) = .ok c) : ∃ n, Spells head n ∧ Builds n argv c := by
  rcases tryFrom_request head argv with ⟨-, he⟩ | ⟨n, hn, he⟩
  · rw [h] at he
    cases he
  · rw [h] at he
    refine ⟨n, hn, ?_⟩
    rcases parse_cases n argv with ⟨-, hp⟩ | ⟨_, _, -, -, -, hp⟩ | ⟨d, hd, hp⟩
    · rw [hp] at he
      cases he
    · rw [hp] at he
      cases he
    · rw [hp] at he
      cases he
      exact hd

/-- The two tables side by side. -/
theorem Builds.name {n : Name} {argv : List Bytes} {c : Command} (h : Builds n argv c) :
    c.name = if n = .auth then Name.get.text else n.text := by
  cases h <;> rfl

theorem Name.text_get_ne_auth : asBytes Name.get.text ≠ asBytes Name.auth.text := by
  decide

/-- The bytes of AUTH's name belong to another command of the same arity. -/
theorem Builds.auth_as_get {argv : List Bytes} {c : Command} (h : Builds .auth argv c) :
    ∃ key, c = .auth key ∧
      Command.tryFrom (request (asBytes Name.get.text) argv) = .ok (.get key) := by
  cases h with
  | auth key => exact ⟨key, rfl, (Builds.get key).tryFrom (spells_text .get)⟩

/-- The name of a decoded command is the head of its frame in capitals, and decodes in its
place to the same command, exactly when the head is not AUTH. -/
theorem name_inverts_decoder_iff {f : Frame} {c : Command} (h : tryFrom f = .ok c) :
    ∃ head argv, f = request head argv ∧
      (asBytes c.name = head.map toAsciiUppercase ↔
        eqIgnoreAsciiCase head (asBytes "auth") = false) ∧
      (tryFrom (request (asBytes c.name) argv) = .ok c ↔
        eqIgnoreAsciiCase head (asBytes "auth") = false) := by
  obtain ⟨head, argv, rfl⟩ | he := request_or_refused f
  · obtain ⟨n, hn, hb⟩ := tryFrom_ok_builds h
    refine ⟨head, argv, rfl, ?_⟩
    have hauth : eqIgnoreAsciiCase head (asBytes "auth") = false ↔ n ≠ .auth := by
      rw [Bool.eq_false_iff, ne_eq, not_iff_not]
      refine ⟨fun he => ?_, ?_⟩
      · exact hn.unique (eqIgnoreAsciiCase_iff (n := .auth) |>.mp he)
      · intro he
        subst he
        exact eqIgnoreAsciiCase_iff.mpr hn
    rw [hauth, hn.uppercase, hb.name]
    by_cases hna : n = .auth
    · subst hna
      obtain ⟨key, rfl, hget⟩ := hb.auth_as_get
      rw [if_pos rfl, hget]
      simp [Name.text_get_ne_auth]
    · rw [if_neg hna]
      exact ⟨⟨fun _ => hna, fun _ => rfl⟩, ⟨fun _ => hna, fun _ => hb.tryFrom (spells_text n)⟩⟩
  · rw [he] at h
    cases h

/-- A request in small letters, and its name. -/
theorem name_inverts_decoder_iff_ttl :
    tryFrom (request (asBytes "tTl") [[107]]) = .ok (.ttl [107]) ∧
      asBytes (Command.ttl [107]).name = (asBytes "tTl").map toAsciiUppercase := by
  have h : tryFrom (request (asBytes "tTl") [[107]]) = .ok (.ttl [107]) := by decide
  obtain ⟨head, argv, hf, hname, -⟩ := name_inverts_decoder_iff h
  simp only [request, Frame.array.injEq, Option.some.injEq, List.map_cons, List.cons.injEq,
    Frame.bulk.injEq] at hf
  rw [← hf.1] at hname
  exact ⟨h, hname.mpr (by decide)⟩

/-- AUTH with a password is a decoded command whose name is that of GET, and under that name
the password becomes the key of a GET. -/
theorem auth_named_get :
    tryFrom (request (asBytes "AUTH") [asBytes "pw"]) = .ok (.auth (asBytes "pw")) ∧
      (asBytes "AUTH").map toAsciiUppercase = asBytes "AUTH" ∧
      (Command.auth (asBytes "pw")).name = "GET" ∧
      asBytes (Command.auth (asBytes "pw")).name ≠ (asBytes "AUTH").map toAsciiUppercase ∧
      tryFrom (request (asBytes (Command.auth (asBytes "pw")).name) [asBytes "pw"]) =
        .ok (.get (asBytes "pw")) := by
  decide

end Redlike.Command
