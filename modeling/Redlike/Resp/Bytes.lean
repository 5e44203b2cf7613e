import Mathlib.Algebra.Group.Nat.Defs
import Mathlib.Algebra.Group.Int.Defs
import Mathlib.Data.List.Basic
import Mathlib.Tactic.Common

/-!
# Bytes, lines and numbers

The pieces of the Rust standard library that the protocol code leans on: UTF-8
conversion, the search for a line end, the checked integer parser and the split
on Unicode white space. A `Vec<u8>` is a list of bytes and a `String` is a Lean
string, which carries its own proof of UTF-8 validity.
-/
namespace Redlike.Resp

abbrev Bytes := List UInt8

def cr : UInt8 := 13
def lf : UInt8 := 10
def plus : UInt8 := 43
def minus : UInt8 := 45
def dollar : UInt8 := 36
def star : UInt8 := 42
def colon : UInt8 := 58

/-- The line end of the protocol. -/
def crlf : Bytes := [cr, lf]

/-- `str::as_bytes`. -/
def asBytes (s : String) : Bytes := s.toByteArray.data.toList

/-- `String::from_utf8` and `str::from_utf8`. -/
def fromUtf8 (b : Bytes) : Option String := String.fromUTF8? ⟨b.toArray⟩

theorem fromUtf8_asBytes (s : String) : fromUtf8 (asBytes s) = some s := by
  have hs : (⟨(asBytes s).toArray⟩ : ByteArray) = s.toByteArray := by simp [asBytes]
  unfold fromUtf8 String.fromUTF8?
  rw [hs, dif_pos s.isValidUTF8]
  rfl

theorem asBytes_of_fromUtf8 {b : Bytes} {s : String} (h : fromUtf8 b = some s) :
    asBytes s = b := by
  unfold fromUtf8 String.fromUTF8? at h
  split at h
  · injection h with h
    subst h
    simp [asBytes, String.fromUTF8]
  · cases h

theorem asBytes_ofList (l : List Char) :
    asBytes (String.ofList l) = l.flatMap String.utf8EncodeChar := by
  simp [asBytes, List.utf8Encode]

/-! ## Line ends -/

/-- `buf.windows(2).position(|w| w == b"\r\n")`. -/
def crlfPosition : Bytes → Option Nat
  | a :: b :: rest =>
    if a = cr ∧ b = lf then some 0 else (crlfPosition (b :: rest)).map (· + 1)
  | _ => none

/-- `memchr`. -/
def memchr (b : UInt8) (buf : Bytes) : Option Nat := buf.findIdx? (· == b)

/-- A found line end stays found where it is when bytes are appended. -/
theorem crlfPosition_append {a : Bytes} {pos : Nat} (b : Bytes)
    (h : crlfPosition a = some pos) : crlfPosition (a ++ b) = some pos := by
  induction a generalizing pos with
  | nil => simp [crlfPosition] at h
  | cons x a ih =>
    cases a with
    | nil => simp [crlfPosition] at h
    | cons y a =>
      simp only [List.cons_append, crlfPosition] at h ⊢
      split
      · rwa [if_pos ‹_›] at h
      · rw [if_neg ‹_›, Option.map_eq_some_iff] at h
        obtain ⟨k, hk, rfl⟩ := h
        have hi := ih hk
        rw [List.cons_append] at hi
        rw [hi]
        rfl

/-- The position splits the buffer at the first line end. -/
theorem crlfPosition_spec {a : Bytes} {pos : Nat} (h : crlfPosition a = some pos) :
    a = a.take pos ++ crlf ++ a.drop (pos + 2) ∧ pos + 2 ≤ a.length ∧
      crlfPosition (a.take pos) = none := by
  induction a generalizing pos with
  | nil => simp [crlfPosition] at h
  | cons x a ih =>
    cases a with
    | nil => simp [crlfPosition] at h
    | cons y a =>
      simp only [crlfPosition] at h
      split at h
      · rename_i hc
        injection h with h
        subst h
        simp [crlf, hc.1, hc.2, crlfPosition]
      · rename_i hc
        rw [Option.map_eq_some_iff] at h
        obtain ⟨k, hk, rfl⟩ := h
        obtain ⟨he, hl, hn⟩ := ih hk
        refine ⟨?_, by simp only [List.length_cons] at hl ⊢; omega, ?_⟩
        · rw [List.take_succ_cons, show k + 1 + 2 = (k + 2) + 1 by omega, List.drop_succ_cons]
          simpa using he
        · rw [List.take_succ_cons]
          cases k with
          | zero => simp [crlfPosition]
          | succ k =>
            rw [List.take_succ_cons] at hn ⊢
            rw [crlfPosition, if_neg hc, hn]
            rfl

theorem memchr_append {b : UInt8} {a : Bytes} {pos : Nat} (c : Bytes)
    (h : memchr b a = some pos) : memchr b (a ++ c) = some pos := by
  unfold memchr at h ⊢
  rw [List.findIdx?_append, h]
  rfl

theorem memchr_lt {b : UInt8} {a : Bytes} {pos : Nat} (h : memchr b a = some pos) :
    pos < a.length := by
  unfold memchr at h
  rw [List.findIdx?_eq_some_iff_getElem] at h
  exact h.1

theorem crlfPosition_none_of_not_mem {a : Bytes} (h : cr ∉ a) : crlfPosition a = none := by
  induction a with
  | nil => rfl
  | cons x a ih =>
    have hx : x ≠ cr := fun he => h (by simp [he])
    have ha : cr ∉ a := fun hm => h (by simp [hm])
    cases a with
    | nil => rfl
    | cons y a => simp [crlfPosition, hx, ih ha]

/-- A payload without a line end, even one that ends in CR, is found whole. -/
theorem crlfPosition_payload (a rest : Bytes) (h : crlfPosition a = none) :
    crlfPosition (a ++ crlf ++ rest) = some a.length := by
  induction a with
  | nil => simp [crlf, crlfPosition]
  | cons x a ih =>
    cases a with
    | nil => simp [crlf, crlfPosition, cr, lf]
    | cons y a =>
      simp only [crlfPosition] at h
      split at h
      · cases h
      · rename_i hc
        rw [Option.map_eq_none_iff] at h
        have hi := ih h
        simp only [List.cons_append, crlfPosition, if_neg hc] at hi ⊢
        rw [hi]
        rfl

theorem crlfPosition_eq_none (a : Bytes) : crlfPosition a = none ↔ ¬ crlf <:+: a := by
  constructor
  · rintro h ⟨l, r, rfl⟩
    cases hl : crlfPosition l with
    | some pos =>
      rw [List.append_assoc, crlfPosition_append _ hl] at h
      cases h
    | none =>
      rw [crlfPosition_payload l r hl] at h
      cases h
  · intro h
    cases hp : crlfPosition a with
    | none => rfl
    | some pos => exact absurd ⟨_, _, (crlfPosition_spec hp).1.symm⟩ h

/-! ## Checked decimal numbers -/

/-- `char::to_digit(10)` of one byte. -/
def toDigit (b : UInt8) : Option Nat :=
  if 48 ≤ b.toNat ∧ b.toNat ≤ 57 then some (b.toNat - 48) else none

/-- The checked loop of `from_str_radix`: each multiplication and each addition
(or subtraction, for a negative number) has to stay between `lo` and `hi`. -/
def accumulate (sign lo hi : Int) : Int → Bytes → Option Int
  | acc, [] => some acc
  | acc, b :: rest =>
    match toDigit b with
    | none => none
    | some d =>
      if lo ≤ acc * 10 ∧ acc * 10 ≤ hi then
        if lo ≤ acc * 10 + sign * d ∧ acc * 10 + sign * d ≤ hi then
          accumulate sign lo hi (acc * 10 + sign * d) rest
        else none
      else none

/-- `from_str_radix(_, 10)` of an integer type with least value `lo` and greatest
value `hi`. Only a signed type reads a leading minus as a sign. -/
def parseInt (lo hi : Int) : Bytes → Option Int
  | [] => none
  | [b] => if b = plus ∨ b = minus then none else accumulate 1 lo hi 0 [b]
  | b :: c :: rest =>
    if b = plus then accumulate 1 lo hi 0 (c :: rest)
    else if b = minus ∧ lo < 0 then accumulate (-1) lo hi 0 (c :: rest)
    else accumulate 1 lo hi 0 (b :: c :: rest)

def i64Min : Int := -2^63
def i64Max : Int := 2^63 - 1
def u64Max : Int := 2^64 - 1

/-- `str::parse::<i64>`. -/
def parseI64 (b : Bytes) : Option Int64 := (parseInt i64Min i64Max b).map Int64.ofInt

/-- `str::parse::<u64>`. -/
def parseU64 (b : Bytes) : Option UInt64 := (parseInt 0 u64Max b).map fun v => UInt64.ofNat v.toNat

/-- The value of a string of digits, read from the left onto `acc`. -/
def decimalValue (acc : Nat) (ds : Bytes) : Nat := ds.foldl (fun a b => a * 10 + (b.toNat - 48)) acc

def IsDigits (ds : Bytes) : Prop := ∀ b ∈ ds, (toDigit b).isSome

instance (ds : Bytes) : Decidable (IsDigits ds) := inferInstanceAs (Decidable (∀ _ ∈ ds, _))

theorem toDigit_eq_some {b : UInt8} (h : (toDigit b).isSome) :
    toDigit b = some (b.toNat - 48) := by
  unfold toDigit at h ⊢
  split at h
  · rw [if_pos ‹_›]
  · cases h

theorem le_decimalValue (acc : Nat) (ds : Bytes) : acc ≤ decimalValue acc ds := by
  induction ds generalizing acc with
  | nil => exact Nat.le_refl _
  | cons b ds ih =>
    refine Nat.le_trans ?_ (ih (acc * 10 + (b.toNat - 48)))
    omega

/-- The checked loop succeeds exactly on digits whose value is in range: a value
that has left the range never comes back. -/
theorem accumulate_eq_some {sign lo hi v : Int} (hsign : sign = 1 ∨ sign = -1)
    (hlo : lo ≤ 0) (hhi : 0 ≤ hi) (acc : Nat) (ds : Bytes)
    (hacc : lo ≤ sign * acc ∧ sign * acc ≤ hi) :
    accumulate sign lo hi (sign * acc) ds = some v ↔
      IsDigits ds ∧ v = sign * decimalValue acc ds ∧ lo ≤ v ∧ v ≤ hi := by
  induction ds generalizing acc with
  | nil =>
    simp only [accumulate, IsDigits, decimalValue, List.foldl_nil, Option.some.injEq,
      List.not_mem_nil, false_implies, implies_true, true_and]
    constructor
    · rintro rfl; exact ⟨rfl, hacc⟩
    · rintro ⟨rfl, _⟩; rfl
  | cons b ds ih =>
    have hcons : IsDigits (b :: ds) ↔ (toDigit b).isSome ∧ IsDigits ds := by simp [IsDigits]
    rw [accumulate]
    cases hd : toDigit b with
    | none => simp [hcons, hd]
    | some d =>
      have hdv : d = b.toNat - 48 := by
        have := toDigit_eq_some (b := b) (by simp [hd])
        rw [hd] at this
        exact Option.some.inj this
      have hstep : sign * (acc : Int) * 10 + sign * d = sign * ((acc * 10 + d : Nat) : Int) := by
        push_cast; rw [Int.mul_add, Int.mul_assoc]
      have hval : decimalValue acc (b :: ds) = decimalValue (acc * 10 + d) ds := by
        simp [decimalValue, hdv]
      have hge := le_decimalValue (acc * 10 + d) ds
      simp only [hcons, hd, Option.isSome_some, true_and, hval, hstep]
      by_cases hin : lo ≤ sign * ((acc * 10 + d : Nat) : Int) ∧ sign * ((acc * 10 + d : Nat) : Int) ≤ hi
      · rw [if_pos, if_pos hin]
        · exact ih _ hin
        · rcases hsign with rfl | rfl <;> push_cast at hin <;> constructor <;> omega
      · rw [if_neg hin, ite_self]
        constructor
        · intro h; cases h
        · rintro ⟨_, rfl, h1, h2⟩
          refine absurd ?_ hin
          rcases hsign with rfl | rfl <;> constructor <;> omega

/-- What an integer type accepts: an optional sign and at least one digit, with a
value in the range of the type. -/
def IsNumber (lo hi : Int) (b : Bytes) (v : Int) : Prop :=
  lo ≤ v ∧ v ≤ hi ∧ ∃ ds, ds ≠ [] ∧ IsDigits ds ∧
    ((b = ds ∧ v = decimalValue 0 ds) ∨ (b = plus :: ds ∧ v = decimalValue 0 ds) ∨
      (lo < 0 ∧ b = minus :: ds ∧ v = -(decimalValue 0 ds : Int)))

theorem toDigit_plus : toDigit plus = none := by decide
theorem toDigit_minus : toDigit minus = none := by decide

theorem digits_cons {b : UInt8} {ds : Bytes} (h : IsDigits (b :: ds)) :
    b ≠ plus ∧ b ≠ minus := by
  have hb := h b (by simp)
  constructor
  · rintro rfl; rw [toDigit_plus] at hb; cases hb
  · rintro rfl; rw [toDigit_minus] at hb; cases hb

theorem parseInt_eq_some {lo hi v : Int} (hlo : lo ≤ 0) (hhi : 0 ≤ hi) (b : Bytes) :
    parseInt lo hi b = some v ↔ IsNumber lo hi b v := by
  have hpos : ∀ ds, accumulate 1 lo hi 0 ds = some v ↔
      IsDigits ds ∧ v = decimalValue 0 ds ∧ lo ≤ v ∧ v ≤ hi := by
    intro ds
    have h := accumulate_eq_some (v := v) (.inl rfl) hlo hhi 0 ds (by simpa using ⟨hlo, hhi⟩)
    simpa using h
  have hneg : ∀ ds, accumulate (-1) lo hi 0 ds = some v ↔
      IsDigits ds ∧ v = -(decimalValue 0 ds : Int) ∧ lo ≤ v ∧ v ≤ hi := by
    intro ds
    have h := accumulate_eq_some (v := v) (.inr rfl) hlo hhi 0 ds (by simpa using ⟨hlo, hhi⟩)
    simpa using h
  constructor
  · intro h
    unfold parseInt at h
    split at h
    · cases h
    · rename_i b
      split at h
      · cases h
      · obtain ⟨hd, hv, h1, h2⟩ := (hpos _).mp h
        exact ⟨h1, h2, [b], by simp, hd, .inl ⟨rfl, hv⟩⟩
    · rename_i b c rest
      split at h
      · subst b
        obtain ⟨hd, hv, h1, h2⟩ := (hpos _).mp h
        exact ⟨h1, h2, c :: rest, by simp, hd, .inr (.inl ⟨rfl, hv⟩)⟩
      · split at h
        · rename_i hm
          obtain ⟨rfl, hs⟩ := hm
          obtain ⟨hd, hv, h1, h2⟩ := (hneg _).mp h
          exact ⟨h1, h2, c :: rest, by simp, hd, .inr (.inr ⟨hs, rfl, hv⟩)⟩
        · obtain ⟨hd, hv, h1, h2⟩ := (hpos _).mp h
          exact ⟨h1, h2, b :: c :: rest, by simp, hd, .inl ⟨rfl, hv⟩⟩
  · rintro ⟨h1, h2, ds, hne, hd, ⟨rfl, hv⟩ | ⟨rfl, hv⟩ | ⟨hs, rfl, hv⟩⟩
    · obtain ⟨hp, hm⟩ : b.head hne ≠ plus ∧ b.head hne ≠ minus := by
        obtain ⟨x, xs, rfl⟩ := List.exists_cons_of_ne_nil hne
        exact digits_cons hd
      match b, hne with
      | [x], _ =>
        simp only [List.head_cons] at hp hm
        rw [parseInt, if_neg (by simp [hp, hm])]
        exact (hpos _).mpr ⟨hd, hv, h1, h2⟩
      | x :: y :: rest, _ =>
        simp only [List.head_cons] at hp hm
        rw [parseInt, if_neg hp, if_neg (by simp [hm])]
        exact (hpos _).mpr ⟨hd, hv, h1, h2⟩
    · obtain ⟨x, xs, rfl⟩ := List.exists_cons_of_ne_nil hne
      rw [parseInt, if_pos rfl]
      exact (hpos _).mpr ⟨hd, hv, h1, h2⟩
    · obtain ⟨x, xs, rfl⟩ := List.exists_cons_of_ne_nil hne
      rw [parseInt, if_neg (by decide), if_pos ⟨rfl, hs⟩]
      exact (hneg _).mpr ⟨hd, hv, h1, h2⟩

/-! ### Printed numbers -/

/-- A decimal digit is one byte of UTF-8, the byte of the same value. -/
theorem utf8EncodeChar_digit {c : Char} (h : c.isDigit) :
    String.utf8EncodeChar c = [UInt8.ofNat c.toNat] ∧ 48 ≤ c.toNat ∧ c.toNat ≤ 57 := by
  obtain ⟨h0, h9⟩ := Char.isDigit_iff_toNat.mp h
  have h9 : c.toNat ≤ 57 := h9
  have h0 : 48 ≤ c.toNat := h0
  have hv : c.val.toNat = c.toNat := rfl
  refine ⟨?_, h0, h9⟩
  unfold String.utf8EncodeChar
  simp only [hv]
  rw [if_pos (by omega)]

theorem digits_flatMap (l : List Char) (h : ∀ c ∈ l, c.isDigit) (acc : Nat) :
    IsDigits (l.flatMap String.utf8EncodeChar) ∧
      decimalValue acc (l.flatMap String.utf8EncodeChar) = Nat.ofDigitChars 10 l acc := by
  induction l generalizing acc with
  | nil => simp [IsDigits, decimalValue]
  | cons c l ih =>
    obtain ⟨he, h0, h9⟩ := utf8EncodeChar_digit (h c (by simp))
    have hn : (UInt8.ofNat c.toNat).toNat = c.toNat := by
      rw [UInt8.toNat_ofNat']
      exact Nat.mod_eq_of_lt (by omega)
    obtain ⟨hd, hv⟩ := ih (fun d hd => h d (by simp [hd])) (acc * 10 + (c.toNat - 48))
    rw [List.flatMap_cons, he]
    constructor
    · intro b hb
      rcases List.mem_append.mp hb with hb | hb
      · rw [List.mem_singleton.mp hb, toDigit, hn, if_pos ⟨h0, h9⟩]
        rfl
      · exact hd b hb
    · rw [Nat.ofDigitChars_cons, Nat.mul_comm, show '0'.toNat = 48 from rfl, ← hv]
      simp [decimalValue, hn]

theorem asBytes_toString_nat (n : Nat) :
    IsDigits (asBytes (toString n)) ∧ decimalValue 0 (asBytes (toString n)) = n ∧
      asBytes (toString n) ≠ [] := by
  have hd : ∀ c ∈ Nat.toDigits 10 n, c.isDigit := fun c hc =>
    Nat.isDigit_of_mem_toDigits (by decide) (by decide) hc
  have h := digits_flatMap _ hd 0
  rw [Nat.toString_eq_ofList_toDigits, asBytes_ofList]
  refine ⟨h.1, by rw [h.2, Nat.ofDigitChars_ten_toDigits], ?_⟩
  obtain ⟨c, l, hl⟩ := List.exists_cons_of_ne_nil (Nat.toDigits_ne_nil (n := n) (b := 10))
  rw [hl, List.flatMap_cons]
  simp [String.utf8EncodeChar_ne_nil]

theorem asBytes_toString_negSucc (n : Nat) :
    asBytes (toString (Int.negSucc n)) = minus :: asBytes (toString (n + 1)) := by
  show asBytes ("-" ++ toString (n + 1)) = _
  simp only [asBytes, String.toByteArray_append, ByteArray.data_append, Array.toList_append]
  rfl

theorem parseInt_toString {lo hi i : Int} (hlo : lo ≤ 0) (hhi : 0 ≤ hi) (h1 : lo ≤ i)
    (h2 : i ≤ hi) : parseInt lo hi (asBytes (toString i)) = some i := by
  rw [parseInt_eq_some hlo hhi]
  cases i with
  | ofNat n =>
    obtain ⟨hd, hv, hne⟩ := asBytes_toString_nat n
    exact ⟨h1, h2, _, hne, hd, .inl ⟨rfl, by rw [hv]; rfl⟩⟩
  | negSucc n =>
    obtain ⟨hd, hv, hne⟩ := asBytes_toString_nat (n + 1)
    refine ⟨h1, h2, _, hne, hd, .inr (.inr ⟨?_, asBytes_toString_negSucc n, ?_⟩)⟩
    · have := Int.negSucc_lt_zero n
      omega
    · rw [hv]; rfl

/-- `i64::to_string` followed by `str::parse::<i64>` is the identity. -/
theorem parseI64_toString (i : Int64) : parseI64 (asBytes (toString i)) = some i := by
  have h1 : i64Min ≤ i.toInt := i.le_toInt
  have h2 := i.toInt_lt
  have hs : toString i = toString i.toInt := rfl
  rw [hs, parseI64, parseInt_toString (by decide) (by decide) h1 (by unfold i64Max; omega)]
  simp

theorem parseI64_toString_nat {n : Nat} (h : n < 2^63) :
    parseI64 (asBytes (toString n)) = some (Int64.ofInt n) := by
  have hs : toString n = toString (n : Int) := rfl
  rw [hs, parseI64, parseInt_toString (by decide) (by decide) (by unfold i64Min; omega)
    (by unfold i64Max; omega)]
  rfl

theorem toInt_ofInt_nat {n : Nat} (h : n < 2^63) : (Int64.ofInt n).toInt = n :=
  Int64.toInt_ofInt_of_le (by omega) (by omega)

theorem cr_not_mem_digits {ds : Bytes} (h : IsDigits ds) : cr ∉ ds := by
  intro hm
  have := h cr hm
  simp [toDigit, cr] at this

theorem cr_not_mem_toString (i : Int) : cr ∉ asBytes (toString i) := by
  cases i with
  | ofNat n => exact cr_not_mem_digits (asBytes_toString_nat n).1
  | negSucc n =>
    rw [asBytes_toString_negSucc, List.mem_cons]
    rintro (h | h)
    · exact absurd h (by decide)
    · exact cr_not_mem_digits (asBytes_toString_nat (n + 1)).1 h

/-! ## White space -/

/-- `char::is_whitespace`: the Unicode property White_Space. -/
def isWhitespace (c : Char) : Bool :=
  let n := c.toNat
  (9 ≤ n && n ≤ 13) || n == 0x20 || n == 0x85 || n == 0xA0 || n == 0x1680 ||
    (0x2000 ≤ n && n ≤ 0x200A) || n == 0x2028 || n == 0x2029 || n == 0x202F ||
    n == 0x205F || n == 0x3000

/-- `str::split_whitespace`, each piece as bytes. -/
def splitWhitespace (s : String) : List Bytes :=
  ((s.toList.splitOnP isWhitespace).filter (fun piece => !piece.isEmpty)).map fun piece =>
    asBytes (String.ofList piece)

end Redlike.Resp
