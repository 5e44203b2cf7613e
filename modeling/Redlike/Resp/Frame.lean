import Redlike.Resp.Bytes

/-!
# Frames and their encoding

The protocol's value tree and `Frame::write_to`. Integers are machine words of
the source's own width; every other length is a natural number, and `Fits`
states that it is one an `i64` can print and read back.
-/
namespace Redlike.Resp

inductive Frame where
  | simpleString (inner : String)
  | simpleError (inner : String)
  | bulk (inner : Option Bytes)
  | integer (inner : Int64)
  | array (inner : Option (List Frame))

namespace Frame

mutual
def decEq : (a b : Frame) → Decidable (a = b)
  | .simpleString s, .simpleString t => decidable_of_iff (s = t) (by simp)
  | .simpleError s, .simpleError t => decidable_of_iff (s = t) (by simp)
  | .bulk s, .bulk t => decidable_of_iff (s = t) (by simp)
  | .integer i, .integer j => decidable_of_iff (i = j) (by simp)
  | .array none, .array none => isTrue rfl
  | .array (some l), .array (some m) =>
    match decEqList l m with
    | isTrue h => isTrue (by rw [h])
    | isFalse h => isFalse (by simpa using h)
  | .array none, .array (some _) | .array (some _), .array none => isFalse (by simp)
  | .simpleString _, .simpleError _ | .simpleString _, .bulk _ | .simpleString _, .integer _
  | .simpleString _, .array _ | .simpleError _, .simpleString _ | .simpleError _, .bulk _
  | .simpleError _, .integer _ | .simpleError _, .array _ | .bulk _, .simpleString _
  | .bulk _, .simpleError _ | .bulk _, .integer _ | .bulk _, .array _
  | .integer _, .simpleString _ | .integer _, .simpleError _ | .integer _, .bulk _
  | .integer _, .array _ | .array _, .simpleString _ | .array _, .simpleError _
  | .array _, .bulk _ | .array _, .integer _ => isFalse (by simp)
def decEqList : (l m : List Frame) → Decidable (l = m)
  | [], [] => isTrue rfl
  | [], _ :: _ | _ :: _, [] => isFalse (by simp)
  | a :: l, b :: m =>
    match decEq a b, decEqList l m with
    | isTrue h, isTrue h' => isTrue (by rw [h, h'])
    | isFalse h, _ => isFalse (by simp [h])
    | _, isFalse h => isFalse (by simp [h])
end

instance : DecidableEq Frame := decEq

mutual
/-- `Frame::write_to`, which appends to the buffer. -/
def writeTo (buf : Bytes) : Frame → Bytes
  | .simpleString inner => buf ++ [plus] ++ asBytes inner ++ crlf
  | .simpleError inner => buf ++ [minus] ++ asBytes inner ++ crlf
  | .bulk (some inner) =>
    buf ++ [dollar] ++ asBytes (toString inner.length) ++ crlf ++ inner ++ crlf
  | .bulk none => buf ++ [dollar, minus, 49] ++ crlf
  | .integer inner => buf ++ [colon] ++ asBytes (toString inner) ++ crlf
  | .array (some inner) =>
    writeAll (buf ++ [star] ++ asBytes (toString inner.length) ++ crlf) inner
  | .array none => buf ++ [star, minus, 49] ++ crlf
/-- The `for element in inner` loop of an array. -/
def writeAll (buf : Bytes) : List Frame → Bytes
  | [] => buf
  | element :: rest => writeAll (writeTo buf element) rest
end

/-- `Frame::to_bytes`. -/
def toBytes (f : Frame) : Bytes := writeTo [] f

/-- Structural induction with the elements of an array as one list. -/
@[elab_as_elim]
theorem induction {motive : Frame → Prop}
    (simpleString : ∀ inner, motive (.simpleString inner))
    (simpleError : ∀ inner, motive (.simpleError inner))
    (bulk : ∀ inner, motive (.bulk inner))
    (integer : ∀ inner, motive (.integer inner))
    (nilArray : motive (.array none))
    (array : ∀ inner, (∀ f ∈ inner, motive f) → motive (.array (some inner))) :
    ∀ f, motive f
  | .simpleString inner => simpleString inner
  | .simpleError inner => simpleError inner
  | .bulk inner => bulk inner
  | .integer inner => integer inner
  | .array none => nilArray
  | .array (some inner) =>
    array inner fun f _ => induction simpleString simpleError bulk integer nilArray array f

/-- Writing only ever appends. -/
theorem writeTo_eq (f : Frame) (buf : Bytes) : writeTo buf f = buf ++ toBytes f := by
  unfold toBytes
  induction f using induction generalizing buf with
  | simpleString | simpleError | integer | nilArray => simp [writeTo]
  | bulk inner => cases inner <;> simp [writeTo]
  | array inner ih =>
    have hall : ∀ l : List Frame, (∀ f ∈ l, f ∈ inner) → ∀ a b : Bytes,
        writeAll (a ++ b) l = a ++ writeAll b l := by
      intro l hl
      induction l with
      | nil => intro a b; rfl
      | cons f l ihl =>
        intro a b
        have hf := ih f (hl f (by simp))
        rw [writeAll, hf, List.append_assoc, ihl (fun g hg => hl g (by simp [hg])), writeAll, hf b]
    simp only [writeTo, List.nil_append]
    rw [List.append_assoc, List.append_assoc, hall inner (fun _ h => h), ← List.append_assoc]

theorem writeAll_eq (l : List Frame) (buf : Bytes) :
    writeAll buf l = buf ++ l.flatMap toBytes := by
  induction l generalizing buf with
  | nil => simp [writeAll]
  | cons f l ih => rw [writeAll, ih, writeTo_eq, List.flatMap_cons, List.append_assoc]

theorem toBytes_array (inner : List Frame) :
    toBytes (.array (some inner)) =
      star :: (asBytes (toString inner.length) ++ crlf ++ inner.flatMap toBytes) := by
  rw [toBytes, writeTo, writeAll_eq]
  simp

mutual
/-- No simple payload at any depth contains the line end. -/
def NoCrlf : Frame → Prop
  | .simpleString inner => ¬ crlf <:+: asBytes inner
  | .simpleError inner => ¬ crlf <:+: asBytes inner
  | .bulk _ => True
  | .integer _ => True
  | .array none => True
  | .array (some inner) => NoCrlfAll inner
def NoCrlfAll : List Frame → Prop
  | [] => True
  | f :: rest => NoCrlf f ∧ NoCrlfAll rest
end

mutual
/-- Every payload length at any depth is in the range of `i64`. -/
def Fits : Frame → Prop
  | .simpleString _ => True
  | .simpleError _ => True
  | .bulk none => True
  | .bulk (some inner) => inner.length < 2^63
  | .integer _ => True
  | .array none => True
  | .array (some inner) => inner.length < 2^63 ∧ FitsAll inner
def FitsAll : List Frame → Prop
  | [] => True
  | f :: rest => Fits f ∧ FitsAll rest
end

theorem noCrlfAll_iff (l : List Frame) : NoCrlfAll l ↔ ∀ f ∈ l, NoCrlf f := by
  induction l with
  | nil => simp [NoCrlfAll]
  | cons f l ih => simp [NoCrlfAll, ih]

theorem fitsAll_iff (l : List Frame) : FitsAll l ↔ ∀ f ∈ l, Fits f := by
  induction l with
  | nil => simp [FitsAll]
  | cons f l ih => simp [FitsAll, ih]

end Frame
end Redlike.Resp
