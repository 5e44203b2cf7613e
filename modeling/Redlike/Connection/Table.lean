import Mathlib.Data.List.Forall2
import Redlike.Connection.Command
import Redlike.Resp.Agreement

/-!
# The command table

What the decoder accepts, as a table of names and arities, and which of its four
refusals a frame gets. The table is stated on the bytes of the request: a name is
spelled letter by letter, in capitals or small letters, and the number of an EXPIRE is
a string of digits.
-/
namespace Redlike.Command

open Resp

inductive Name where
  | ping
  | quit
  | get
  | set
  | del
  | expire
  | ttl
  | auth
  deriving DecidableEq

namespace Name

def text : Name → String
  | ping => "PING"
  | quit => "QUIT"
  | get => "GET"
  | set => "SET"
  | del => "DEL"
  | expire => "EXPIRE"
  | ttl => "TTL"
  | auth => "AUTH"

def arity : Name → Nat
  | ping | quit => 0
  | get | del | ttl | auth => 1
  | set | expire => 2

end Name

/-- A capital letter of a name, or its small form. -/
def IsLetter (b capital : UInt8) : Prop := b = capital ∨ b = capital + 32

/-- The bytes spell the name in any ASCII case. -/
def Spells (head : Bytes) (n : Name) : Prop := List.Forall₂ IsLetter head (asBytes n.text)

/-- An optional plus and digits, with a value of 64 bits. -/
def IsSeconds (arg : Bytes) (v : UInt64) : Prop :=
  ∃ ds, ds ≠ [] ∧ IsDigits ds ∧ (arg = ds ∨ arg = plus :: ds) ∧ decimalValue 0 ds < 2^64 ∧
    v = UInt64.ofNat (decimalValue 0 ds)

/-- The command a name and its arguments stand for. -/
inductive Builds : Name → List Bytes → Command → Prop where
  | ping : Builds .ping [] .ping
  | quit : Builds .quit [] .quit
  | get (key : Bytes) : Builds .get [key] (.get key)
  | set (key value : Bytes) : Builds .set [key, value] (.set key value)
  | del (key : Bytes) : Builds .del [key] (.del key)
  | expire {arg : Bytes} {v : UInt64} (key : Bytes) (h : IsSeconds arg v) :
      Builds .expire [key, arg] (.expire key v)
  | ttl (key : Bytes) : Builds .ttl [key] (.ttl key)
  | auth (key : Bytes) : Builds .auth [key] (.auth key)

/-- A request: a name and its arguments, as bulk strings. -/
def request (head : Bytes) (argv : List Bytes) : Frame :=
  .array (some ((head :: argv).map fun b => .bulk (some b)))

/-! ## Names -/

theorem toAsciiLowercase_eq {b c : UInt8} (hc : 65 ≤ c ∧ c ≤ 90) :
    toAsciiLowercase b = c + 32 ↔ IsLetter b c := by
  unfold toAsciiLowercase IsLetter
  simp only [UInt8.le_iff_toNat_le, ← UInt8.toNat_inj] at hc ⊢
  split
  · simp only [UInt8.toNat_add, UInt8.reduceToNat] at *
    omega
  · simp only [UInt8.toNat_add, UInt8.reduceToNat] at *
    omega

/-- Spelling a name of capitals, by its small letters. -/
theorem forall₂_isLetter {head capitals : Bytes} (h : ∀ c ∈ capitals, 65 ≤ c ∧ c ≤ 90) :
    head.map toAsciiLowercase = capitals.map (· + 32) ↔ List.Forall₂ IsLetter head capitals := by
  induction head generalizing capitals with
  | nil => cases capitals <;> simp
  | cons b head ih =>
    cases capitals with
    | nil => simp
    | cons c capitals =>
      rw [List.forall₂_cons, List.map_cons, List.map_cons, List.cons.injEq,
        toAsciiLowercase_eq (h c (by simp)), ih fun d hd => h d (by simp [hd])]

/-- The small letters of a name, as the decoder compares them. -/
def Name.small (n : Name) : Bytes := (asBytes n.text).map (· + 32)

theorem Name.small_injective {n m : Name} (h : n.small = m.small) : n = m := by
  revert h
  cases n <;> cases m <;> decide

theorem Name.capitals (n : Name) : ∀ c ∈ asBytes n.text, 65 ≤ c ∧ c ≤ 90 := by
  cases n <;> decide +kernel

theorem spells_iff {head : Bytes} {n : Name} :
    Spells head n ↔ head.map toAsciiLowercase = n.small :=
  (forall₂_isLetter n.capitals).symm

theorem Spells.unique {head : Bytes} {n m : Name} (hn : Spells head n) (hm : Spells head m) :
    n = m :=
  Name.small_injective ((spells_iff.mp hn).symm.trans (spells_iff.mp hm))

/-- The literal the decoder compares with. -/
def Name.lower : Name → String
  | ping => "ping"
  | quit => "quit"
  | get => "get"
  | set => "set"
  | del => "del"
  | expire => "expire"
  | ttl => "ttl"
  | auth => "auth"

theorem eqIgnoreAsciiCase_iff {head : Bytes} {n : Name} :
    eqIgnoreAsciiCase head (asBytes n.lower) = true ↔ Spells head n := by
  have hl : (asBytes n.lower).map toAsciiLowercase = n.small := by
    cases n <;> decide
  rw [spells_iff, eqIgnoreAsciiCase, beq_iff_eq, hl]

/-! ## The decoder by names -/

/-- The decoder of one command. -/
def Name.parse : Name → List Bytes → Except Error Command
  | ping => parsePing
  | quit => parseQuit
  | get => parseGet
  | set => parseSet
  | del => parseDel
  | expire => parseExpire
  | ttl => parseTtl
  | auth => parseAuth

theorem bulkArgs_request (head : Bytes) (argv : List Bytes) :
    bulkArgs (request head argv) = .ok (head :: argv) := by
  rcases bulkArgs_cases (request head argv) with ⟨bs, hbs, hf⟩ | he
  · have hinj : Function.Injective fun b : Bytes => Frame.bulk (some b) := by
      intro a b h
      simpa using h
    rw [request, Frame.array.injEq, Option.some.injEq] at hf
    rw [hbs, List.map_injective_iff.mpr hinj hf]
  · exfalso
    have h : ∀ bs : List Bytes, (bs.map fun b => Frame.bulk (some b)).mapM bulkArg = .ok bs := by
      intro bs
      induction bs with
      | nil => rfl
      | cons b bs ih =>
        rw [List.map_cons, List.mapM_cons, ih]
        rfl
    rw [show bulkArgs (request head argv) = .ok (head :: argv) from h (head :: argv)] at he
    cases he

theorem tryFrom_of_spells {head : Bytes} {n : Name} (h : Spells head n) (argv : List Bytes) :
    tryFrom (request head argv) = n.parse argv := by
  have test (m : Name) : eqIgnoreAsciiCase head (asBytes m.lower) = decide (m = n) := by
    by_cases hm : m = n
    · subst hm
      simpa using eqIgnoreAsciiCase_iff.mpr h
    · simp only [hm, decide_false, Bool.eq_false_iff]
      exact fun he => hm ((eqIgnoreAsciiCase_iff.mp he).unique h)
  have hping : eqIgnoreAsciiCase head (asBytes "ping") = decide (Name.ping = n) := test .ping
  have hquit : eqIgnoreAsciiCase head (asBytes "quit") = decide (Name.quit = n) := test .quit
  have hget : eqIgnoreAsciiCase head (asBytes "get") = decide (Name.get = n) := test .get
  have hset : eqIgnoreAsciiCase head (asBytes "set") = decide (Name.set = n) := test .set
  have hdel : eqIgnoreAsciiCase head (asBytes "del") = decide (Name.del = n) := test .del
  have hexpire : eqIgnoreAsciiCase head (asBytes "expire") = decide (Name.expire = n) := test .expire
  have httl : eqIgnoreAsciiCase head (asBytes "ttl") = decide (Name.ttl = n) := test .ttl
  have hauth : eqIgnoreAsciiCase head (asBytes "auth") = decide (Name.auth = n) := test .auth
  rw [tryFrom, bulkArgs_request]
  dsimp only
  rw [hping, hquit, hget, hset, hdel, hexpire, httl, hauth]
  cases n <;> rfl

theorem tryFrom_unspelled {head : Bytes} (h : ∀ n, ¬ Spells head n) (argv : List Bytes) :
    tryFrom (request head argv) = .error .unknownCommand := by
  have test (m : Name) : ¬ eqIgnoreAsciiCase head (asBytes m.lower) = true :=
    fun he => h m (eqIgnoreAsciiCase_iff.mp he)
  rw [tryFrom, bulkArgs_request]
  dsimp only
  refine (if_neg (test .ping)).trans ((if_neg (test .quit)).trans ((if_neg (test .get)).trans ?_))
  refine (if_neg (test .set)).trans ((if_neg (test .del)).trans ((if_neg (test .expire)).trans ?_))
  exact (if_neg (test .ttl)).trans (if_neg (test .auth))

/-! ## Arguments -/

theorem parseU64_eq_some {arg : Bytes} {v : UInt64} :
    parseU64 arg = some v ↔ IsSeconds arg v := by
  unfold parseU64
  rw [Option.map_eq_some_iff]
  constructor
  · rintro ⟨z, hz, rfl⟩
    obtain ⟨-, hmax, ds, hne, hd, h⟩ := (parseInt_eq_some (by decide) (by decide) _).mp hz
    have hz : z = decimalValue 0 ds ∧ (arg = ds ∨ arg = plus :: ds) := by
      rcases h with ⟨harg, hz⟩ | ⟨harg, hz⟩ | ⟨hneg, -⟩
      · exact ⟨hz, .inl harg⟩
      · exact ⟨hz, .inr harg⟩
      · exact absurd hneg (by decide)
    obtain ⟨rfl, harg⟩ := hz
    refine ⟨ds, hne, hd, harg, ?_, rfl⟩
    unfold u64Max at hmax
    omega
  · rintro ⟨ds, hne, hd, harg, hlt, rfl⟩
    refine ⟨decimalValue 0 ds, (parseInt_eq_some (by decide) (by decide) _).mpr ?_, rfl⟩
    have hmax : (decimalValue 0 ds : Int) ≤ u64Max := by
      unfold u64Max
      omega
    refine ⟨Int.natCast_nonneg _, hmax, ds, hne, hd, ?_⟩
    exact harg.elim (fun h => .inl ⟨h, rfl⟩) (fun h => .inr (.inl ⟨h, rfl⟩))

theorem isSeconds_unique {arg : Bytes} {v w : UInt64} (hv : IsSeconds arg v) (hw : IsSeconds arg w) :
    v = w :=
  Option.some.inj ((parseU64_eq_some.mpr hv).symm.trans (parseU64_eq_some.mpr hw))

/-- Numbers are ASCII, so the UTF-8 check in front refuses none. -/
theorem IsSeconds.fromUtf8 {arg : Bytes} {v : UInt64} (h : IsSeconds arg v) :
    ∃ s, fromUtf8 arg = some s := by
  obtain ⟨ds, hne, hd, harg, -⟩ := h
  have hs : Grammar.signed arg = some (decimalValue 0 ds : Int) := by
    rw [Grammar.signed_eq_some]
    exact ⟨ds, hne, hd, harg.elim (fun h => .inl ⟨h, rfl⟩) (fun h => .inr (.inl ⟨h, rfl⟩))⟩
  exact Grammar.fromUtf8_ascii (Grammar.signed_ascii hs)

theorem parseU64Arg_cases (arg : Bytes) :
    (∃ v, IsSeconds arg v ∧ parseU64Arg arg = .ok v) ∨
      ((¬ ∃ v, IsSeconds arg v) ∧ parseU64Arg arg = .error .wrongArgumentType) := by
  unfold parseU64Arg
  cases hu : fromUtf8 arg with
  | none =>
    refine .inr ⟨?_, rfl⟩
    rintro ⟨v, hv⟩
    obtain ⟨s, hs⟩ := hv.fromUtf8
    rw [hu] at hs
    cases hs
  | some s =>
    dsimp only
    rw [asBytes_of_fromUtf8 hu]
    cases hp : parseU64 arg with
    | none =>
      refine .inr ⟨?_, rfl⟩
      rintro ⟨v, hv⟩
      rw [parseU64_eq_some.mpr hv] at hp
      cases hp
    | some v => exact .inl ⟨v, parseU64_eq_some.mp hp, rfl⟩

theorem Builds.unique {n : Name} {argv : List Bytes} {c d : Command} (hc : Builds n argv c)
    (hd : Builds n argv d) : c = d := by
  cases hc <;> cases hd
  case expire key h _ h' => rw [isSeconds_unique h h']
  all_goals rfl

theorem Builds.length {n : Name} {argv : List Bytes} {c : Command} (h : Builds n argv c) :
    argv.length = n.arity := by
  cases h <;> rfl

theorem Builds.seconds {key arg : Bytes} {c : Command} (h : Builds .expire [key, arg] c) :
    ∃ v, IsSeconds arg v := by
  cases h with
  | expire key hv => exact ⟨_, hv⟩

theorem parseNullary_cases (name : String) (command : Command) (argv : List Bytes) :
    (argv.length ≠ 0 ∧ parseNullary name command argv = .error (.wrongArity name argv.length 0)) ∨
      (argv = [] ∧ parseNullary name command argv = .ok command) := by
  cases argv with
  | nil => exact .inr ⟨rfl, rfl⟩
  | cons a argv => exact .inl ⟨by simp, rfl⟩

theorem parseUnary_cases (name : String) (command : Bytes → Command) (argv : List Bytes) :
    (argv.length ≠ 1 ∧ parseUnary name command argv = .error (.wrongArity name argv.length 1)) ∨
      ∃ key, argv = [key] ∧ parseUnary name command argv = .ok (command key) := by
  unfold parseUnary
  split
  · exact .inr ⟨_, rfl, rfl⟩
  · rename_i h
    refine .inl ⟨fun hl => ?_, rfl⟩
    obtain ⟨key, rfl⟩ := List.length_eq_one_iff.mp hl
    exact h key rfl

/-- What the decoder of a command answers. -/
theorem parse_cases (n : Name) (argv : List Bytes) :
    (argv.length ≠ n.arity ∧
      n.parse argv = .error (.wrongArity n.text argv.length n.arity)) ∨
    (∃ key arg, n = .expire ∧ argv = [key, arg] ∧ (¬ ∃ v, IsSeconds arg v) ∧
      n.parse argv = .error .wrongArgumentType) ∨
    ∃ c, Builds n argv c ∧ n.parse argv = .ok c := by
  have nullary {name : String} {c : Command} (hb : Builds n [] c)
      (hn : n.parse = parseNullary name c ∧ n.text = name ∧ n.arity = 0) :
      (argv.length ≠ n.arity ∧
        n.parse argv = .error (.wrongArity n.text argv.length n.arity)) ∨
      ∃ c, Builds n argv c ∧ n.parse argv = .ok c := by
    rw [hn.1, hn.2.1, hn.2.2]
    rcases parseNullary_cases name c argv with h | ⟨rfl, h⟩
    · exact .inl h
    · exact .inr ⟨c, hb, h⟩
  have unary {name : String} {c : Bytes → Command} (hb : ∀ key, Builds n [key] (c key))
      (hn : n.parse = parseUnary name c ∧ n.text = name ∧ n.arity = 1) :
      (argv.length ≠ n.arity ∧
        n.parse argv = .error (.wrongArity n.text argv.length n.arity)) ∨
      ∃ c, Builds n argv c ∧ n.parse argv = .ok c := by
    rw [hn.1, hn.2.1, hn.2.2]
    rcases parseUnary_cases name c argv with h | ⟨key, rfl, h⟩
    · exact .inl h
    · exact .inr ⟨c key, hb key, h⟩
  cases n with
  | ping => exact (nullary .ping ⟨rfl, rfl, rfl⟩).imp_right .inr
  | quit => exact (nullary .quit ⟨rfl, rfl, rfl⟩).imp_right .inr
  | get => exact (unary .get ⟨rfl, rfl, rfl⟩).imp_right .inr
  | del => exact (unary .del ⟨rfl, rfl, rfl⟩).imp_right .inr
  | ttl => exact (unary .ttl ⟨rfl, rfl, rfl⟩).imp_right .inr
  | auth => exact (unary .auth ⟨rfl, rfl, rfl⟩).imp_right .inr
  | set =>
    by_cases hl : argv.length = 2
    · obtain ⟨key, value, rfl⟩ := List.length_eq_two.mp hl
      exact .inr (.inr ⟨_, .set key value, rfl⟩)
    · refine .inl ⟨hl, ?_⟩
      show parseSet argv = _
      unfold parseSet
      split
      · exact absurd rfl hl
      · rfl
  | expire =>
    by_cases hl : argv.length = 2
    · obtain ⟨key, arg, rfl⟩ := List.length_eq_two.mp hl
      have hp : Name.expire.parse [key, arg] = (parseU64Arg arg).map (.expire key) := rfl
      rw [hp]
      rcases parseU64Arg_cases arg with ⟨v, hv, he⟩ | ⟨hn, he⟩
      · exact .inr (.inr ⟨_, .expire key hv, by rw [he]; rfl⟩)
      · exact .inr (.inl ⟨key, arg, rfl, rfl, hn, by rw [he]; rfl⟩)
    · refine .inl ⟨hl, ?_⟩
      show parseExpire argv = _
      unfold parseExpire
      split
      · exact absurd rfl hl
      · rfl

/-! ## The table -/

theorem isSeconds_digits (v : UInt64) : IsSeconds (asBytes (toString v.toNat)) v := by
  obtain ⟨hd, hv, hne⟩ := asBytes_toString_nat v.toNat
  refine ⟨_, hne, hd, .inl rfl, ?_, ?_⟩
  · rw [hv]
    exact v.toNat_lt
  · rw [hv, UInt64.ofNat_toNat]

/-- A command that the table has, with any argument bytes, comes from some request. -/
theorem builds_of_ne_noop {c : Command} (h : c ≠ .noop) : ∃ n argv, Builds n argv c := by
  cases c with
  | ping => exact ⟨_, _, .ping⟩
  | get key => exact ⟨_, _, .get key⟩
  | set key value => exact ⟨_, _, .set key value⟩
  | del key => exact ⟨_, _, .del key⟩
  | ttl key => exact ⟨_, _, .ttl key⟩
  | quit => exact ⟨_, _, .quit⟩
  | noop => exact absurd rfl h
  | auth key => exact ⟨_, _, .auth key⟩
  | expire key value => exact ⟨_, _, .expire key (isSeconds_digits value)⟩

theorem spells_text (n : Name) : Spells (asBytes n.text) n :=
  List.forall₂_same.mpr fun _ _ => .inl rfl

theorem request_or_refused (f : Frame) :
    (∃ head argv, f = request head argv) ∨ tryFrom f = .error .invalidCommandFrame := by
  rcases bulkArgs_cases f with ⟨_ | ⟨head, argv⟩, hbs, hf⟩ | he
  · right
    rw [tryFrom, hbs]
  · exact .inl ⟨head, argv, hf⟩
  · right
    rw [tryFrom, he]

/-- A request is refused for its name, or it goes to the decoder of its command. -/
theorem tryFrom_request (head : Bytes) (argv : List Bytes) :
    ((∀ n, ¬ Spells head n) ∧ tryFrom (request head argv) = .error .unknownCommand) ∨
      ∃ n, Spells head n ∧ tryFrom (request head argv) = n.parse argv := by
  by_cases h : ∃ n, Spells head n
  · obtain ⟨n, hn⟩ := h
    exact .inr ⟨n, hn, tryFrom_of_spells hn argv⟩
  · push Not at h
    exact .inl ⟨h, tryFrom_unspelled h argv⟩

theorem Builds.tryFrom {n : Name} {argv : List Bytes} {c : Command} (h : Builds n argv c)
    {head : Bytes} (hn : Spells head n) : tryFrom (request head argv) = .ok c := by
  rw [tryFrom_of_spells hn]
  rcases parse_cases n argv with ⟨hl, -⟩ | ⟨key, arg, rfl, rfl, hs, -⟩ | ⟨d, hd, hp⟩
  · exact absurd h.length hl
  · exact absurd h.seconds hs
  · rw [hp, hd.unique h]

/-- The decoder of a command refuses only numbers of arguments and their form. -/
theorem parse_ne_frame (n : Name) (argv : List Bytes) :
    n.parse argv ≠ .error .invalidCommandFrame ∧ n.parse argv ≠ .error .unknownCommand := by
  rcases parse_cases n argv with ⟨-, h⟩ | ⟨_, _, -, -, -, h⟩ | ⟨c, -, h⟩
  all_goals
    rw [h]
    simp

/-- The decoder is the table: the shape of the frame is judged first, then the name, then the
number of arguments, then the number of an EXPIRE. -/
theorem tryFrom_table :
    (∀ f, tryFrom f = .error .invalidCommandFrame ↔ ¬ ∃ head argv, f = request head argv) ∧
    (∀ head argv, tryFrom (request head argv) = .error .unknownCommand ↔ ∀ n, ¬ Spells head n) ∧
    (∀ head argv n, Spells head n →
      (∀ command given expected,
        tryFrom (request head argv) = .error (.wrongArity command given expected) ↔
          argv.length ≠ n.arity ∧ command = n.text ∧ given = argv.length ∧ expected = n.arity) ∧
      (tryFrom (request head argv) = .error .wrongArgumentType ↔
        n = .expire ∧ ∃ key arg, argv = [key, arg] ∧ ¬ ∃ v, IsSeconds arg v) ∧
      ∀ c, tryFrom (request head argv) = .ok c ↔ Builds n argv c) ∧
    ∀ c, (∃ f, tryFrom f = .ok c) ↔ c ≠ .noop := by
  refine ⟨?_, ?_, ?_, ?_⟩
  · intro f
    constructor
    · rintro h ⟨head, argv, rfl⟩
      rcases tryFrom_request head argv with ⟨-, he⟩ | ⟨n, -, he⟩
      · rw [h] at he
        cases he
      · exact (parse_ne_frame n argv).1 (he.symm.trans h)
    · exact (request_or_refused f).resolve_left
  · intro head argv
    constructor
    · intro h n hn
      rw [tryFrom_of_spells hn] at h
      exact (parse_ne_frame n argv).2 h
    · exact fun h => tryFrom_unspelled h argv
  · intro head argv n hn
    rw [tryFrom_of_spells hn]
    rcases parse_cases n argv with ⟨hl, h⟩ | ⟨key, arg, rfl, rfl, hs, h⟩ | ⟨c, hb, h⟩
    · -- the wrong number of arguments: nothing is built, and the argument is not looked at
      have hno (c : Command) : ¬ Builds n argv c := fun hb => hl hb.length
      have hargs : ¬ (n = .expire ∧ ∃ key arg, argv = [key, arg] ∧ ¬ ∃ v, IsSeconds arg v) := by
        rintro ⟨rfl, key, arg, rfl, -⟩
        exact hl rfl
      rw [h]
      refine ⟨fun command given expected => ?_, ?_, fun c => ?_⟩
      · simp only [Except.error.injEq, Error.wrongArity.injEq]
        exact ⟨fun ⟨h₁, h₂, h₃⟩ => ⟨hl, h₁.symm, h₂.symm, h₃.symm⟩,
          fun ⟨_, h₁, h₂, h₃⟩ => ⟨h₁.symm, h₂.symm, h₃.symm⟩⟩
      · simp only [Except.error.injEq, reduceCtorEq, false_iff]
        exact hargs
      · simp only [reduceCtorEq, false_iff]
        exact hno c
    · rw [h]
      refine ⟨fun command given expected => ?_, ?_, fun c => ?_⟩
      · simp [Name.arity]
      · exact ⟨fun _ => ⟨rfl, key, arg, rfl, hs⟩, fun _ => rfl⟩
      · simp only [reduceCtorEq, false_iff]
        exact fun hb => hs hb.seconds
    · have hargs : ¬ (n = .expire ∧ ∃ key arg, argv = [key, arg] ∧ ¬ ∃ v, IsSeconds arg v) := by
        rintro ⟨rfl, key, arg, rfl, hs⟩
        exact hs hb.seconds
      rw [h]
      refine ⟨fun command given expected => ?_, ?_, fun d => ?_⟩
      · simp only [reduceCtorEq, false_iff]
        exact fun hc => hc.1 hb.length
      · simp only [reduceCtorEq, false_iff]
        exact hargs
      · rw [Except.ok.injEq]
        exact ⟨fun he => he ▸ hb, fun hd => hb.unique hd⟩
  · intro c
    constructor
    · rintro ⟨f, hf⟩ rfl
      obtain ⟨_, _, -, hd⟩ := tryFrom_ok hf
      cases hd
    · intro hc
      obtain ⟨n, argv, hb⟩ := builds_of_ne_noop hc
      exact ⟨request (asBytes n.text) argv, hb.tryFrom (spells_text n)⟩

/-- A name in mixed case, and a number with a sign and a leading zero. -/
theorem tryFrom_table_mixed_case :
    Spells (asBytes "eXpIrE") .expire ∧ IsSeconds (asBytes "+07") 7 ∧
      tryFrom (request (asBytes "eXpIrE") [[107], asBytes "+07"]) = .ok (.expire [107] 7) := by
  have hname : Spells (asBytes "eXpIrE") .expire := eqIgnoreAsciiCase_iff.mp (by decide)
  have hsecs : IsSeconds (asBytes "+07") 7 :=
    ⟨asBytes "07", by decide, by decide +kernel, .inr (by decide),
      by decide, by decide⟩
  exact ⟨hname, hsecs, ((tryFrom_table.2.2.1 _ _ _ hname).2.2 _).mpr (.expire [107] hsecs)⟩

end Redlike.Command
