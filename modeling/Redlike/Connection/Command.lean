import Redlike.Resp.Frame

/-!
# Commands

`Command::try_from`: a request is a non-empty array of bulk strings whose first
element names the command in any ASCII case.
-/
namespace Redlike

open Resp

inductive Error where
  | io
  | wrongArity (command : String) (given expected : Nat)
  | unknownCommand
  | invalidCommandFrame
  | wrongArgumentType
  deriving DecidableEq

inductive Command where
  | ping
  | get (key : Bytes)
  | set (key value : Bytes)
  | del (key : Bytes)
  | expire (key : Bytes) (value : UInt64)
  | ttl (key : Bytes)
  | quit
  | noop
  | auth (key : Bytes)
  deriving DecidableEq

namespace Command

/-- One element of a request. -/
def bulkArg : Frame → Except Error Bytes
  | .bulk (some inner) => .ok inner
  | _ => .error .invalidCommandFrame

def bulkArgs : Frame → Except Error (List Bytes)
  | .array (some (arg :: args)) => (arg :: args).mapM bulkArg
  | _ => .error .invalidCommandFrame

def wrongArity (command : String) (given expected : Nat) : Error := .wrongArity command given expected

/-- A command without arguments. -/
def parseNullary (name : String) (command : Command) (argv : List Bytes) : Except Error Command :=
  match argv with
  | [] => .ok command
  | _ => .error (wrongArity name argv.length 0)

/-- A command with one argument. -/
def parseUnary (name : String) (command : Bytes → Command) (argv : List Bytes) :
    Except Error Command :=
  match argv with
  | [key] => .ok (command key)
  | _ => .error (wrongArity name argv.length 1)

def parsePing : List Bytes → Except Error Command := parseNullary "PING" .ping
def parseQuit : List Bytes → Except Error Command := parseNullary "QUIT" .quit
def parseGet : List Bytes → Except Error Command := parseUnary "GET" .get
def parseDel : List Bytes → Except Error Command := parseUnary "DEL" .del
def parseTtl : List Bytes → Except Error Command := parseUnary "TTL" .ttl
def parseAuth : List Bytes → Except Error Command := parseUnary "AUTH" .auth

def parseSet (argv : List Bytes) : Except Error Command :=
  match argv with
  | [key, value] => .ok (.set key value)
  | _ => .error (wrongArity "SET" argv.length 2)

def parseU64Arg (value : Bytes) : Except Error UInt64 :=
  match fromUtf8 value with
  | none => .error .wrongArgumentType
  | some s =>
    match parseU64 (asBytes s) with
    | none => .error .wrongArgumentType
    | some v => .ok v

def parseExpire (argv : List Bytes) : Except Error Command :=
  match argv with
  | [key, value] => (parseU64Arg value).map (.expire key)
  | _ => .error (wrongArity "EXPIRE" argv.length 2)

/-- `u8::to_ascii_lowercase`. -/
def toAsciiLowercase (b : UInt8) : UInt8 := if 65 ≤ b ∧ b ≤ 90 then b + 32 else b

/-- `<[u8]>::eq_ignore_ascii_case`. -/
def eqIgnoreAsciiCase (a b : Bytes) : Bool := a.map toAsciiLowercase == b.map toAsciiLowercase

def tryFrom (value : Frame) : Except Error Command :=
  match bulkArgs value with
  | .error e => .error e
  | .ok [] => .error .invalidCommandFrame
  | .ok (cmd :: argv) =>
    if eqIgnoreAsciiCase cmd (asBytes "ping") then parsePing argv
    else if eqIgnoreAsciiCase cmd (asBytes "quit") then parseQuit argv
    else if eqIgnoreAsciiCase cmd (asBytes "get") then parseGet argv
    else if eqIgnoreAsciiCase cmd (asBytes "set") then parseSet argv
    else if eqIgnoreAsciiCase cmd (asBytes "del") then parseDel argv
    else if eqIgnoreAsciiCase cmd (asBytes "expire") then parseExpire argv
    else if eqIgnoreAsciiCase cmd (asBytes "ttl") then parseTtl argv
    else if eqIgnoreAsciiCase cmd (asBytes "auth") then parseAuth argv
    else .error .unknownCommand

/-- As the source has it: AUTH is under the name of GET. -/
def name : Command → String
  | ping => "PING"
  | get _ => "GET"
  | set _ _ => "SET"
  | del _ => "DEL"
  | expire _ _ => "EXPIRE"
  | ttl _ => "TTL"
  | quit => "QUIT"
  | noop => "NOOP"
  | auth _ => "GET"

theorem mapM_bulkArg (args : List Frame) :
    (∃ bs, args.mapM bulkArg = .ok bs ∧ args = bs.map fun b => .bulk (some b)) ∨
      args.mapM bulkArg = .error .invalidCommandFrame := by
  induction args with
  | nil => exact .inl ⟨[], rfl, rfl⟩
  | cons a args ih =>
    rw [List.mapM_cons]
    by_cases ha : ∃ b, a = .bulk (some b)
    · obtain ⟨b, rfl⟩ := ha
      rcases ih with ⟨bs, hbs, rfl⟩ | he
      · left
        exact ⟨b :: bs, by rw [hbs]; rfl, rfl⟩
      · right
        rw [he]
        rfl
    · right
      have he : bulkArg a = .error .invalidCommandFrame := by
        unfold bulkArg
        split
        · exact absurd ⟨_, rfl⟩ ha
        · rfl
      rw [he]
      rfl

theorem bulkArgs_cases (f : Frame) :
    (∃ bs, bulkArgs f = .ok bs ∧ f = .array (some (bs.map fun b => .bulk (some b)))) ∨
      bulkArgs f = .error .invalidCommandFrame := by
  unfold bulkArgs
  split
  · rename_i arg args
    rcases mapM_bulkArg (arg :: args) with ⟨bs, hbs, ha⟩ | he
    · exact .inl ⟨bs, hbs, by rw [ha]⟩
    · exact .inr he
  · exact .inr rfl

/-- The arguments a decoded command was made from. -/
inductive Decoded : List Bytes → Command → Prop where
  | ping : Decoded [] .ping
  | quit : Decoded [] .quit
  | get (key : Bytes) : Decoded [key] (.get key)
  | set (key value : Bytes) : Decoded [key, value] (.set key value)
  | del (key : Bytes) : Decoded [key] (.del key)
  | expire (key arg : Bytes) (value : UInt64) : Decoded [key, arg] (.expire key value)
  | ttl (key : Bytes) : Decoded [key] (.ttl key)
  | auth (key : Bytes) : Decoded [key] (.auth key)

/-- The result of a decoder for one command. -/
def Decodes (argv : List Bytes) (r : Except Error Command) : Prop :=
  match r with
  | .ok cmd => Decoded argv cmd
  | .error e => e ≠ .io

theorem decodes_nullary {name : String} {cmd : Command} (h : Decoded [] cmd) (argv : List Bytes) :
    Decodes argv (parseNullary name cmd argv) := by
  unfold parseNullary
  split
  · exact h
  · simp [Decodes, wrongArity]

theorem decodes_unary {name : String} {cmd : Bytes → Command} (h : ∀ key, Decoded [key] (cmd key))
    (argv : List Bytes) : Decodes argv (parseUnary name cmd argv) := by
  unfold parseUnary
  split
  · exact h _
  · simp [Decodes, wrongArity]

theorem decodes_set (argv : List Bytes) : Decodes argv (parseSet argv) := by
  unfold parseSet
  split
  · exact .set _ _
  · simp [Decodes, wrongArity]

theorem decodes_expire (argv : List Bytes) : Decodes argv (parseExpire argv) := by
  unfold parseExpire
  split
  · rename_i key value
    unfold parseU64Arg
    split
    · simp [Decodes, Except.map]
    · split
      · simp [Decodes, Except.map]
      · exact .expire _ _ _
  · simp [Decodes, wrongArity]

theorem tryFrom_cases (f : Frame) :
    tryFrom f = .error .invalidCommandFrame ∨
      ∃ cmd argv, f = .array (some ((cmd :: argv).map fun b => .bulk (some b))) ∧
        Decodes argv (tryFrom f) := by
  unfold tryFrom
  rcases bulkArgs_cases f with ⟨_ | ⟨cmd, argv⟩, hbs, hf⟩ | he
  · rw [hbs]
    exact .inl rfl
  · right
    refine ⟨cmd, argv, hf, ?_⟩
    rw [hbs]
    dsimp only
    split
    · exact decodes_nullary .ping argv
    split
    · exact decodes_nullary .quit argv
    split
    · exact decodes_unary .get argv
    split
    · exact decodes_set argv
    split
    · exact decodes_unary .del argv
    split
    · exact decodes_expire argv
    split
    · exact decodes_unary .ttl argv
    split
    · exact decodes_unary .auth argv
    · simp [Decodes]
  · rw [he]
    exact .inl rfl

/-- The decoder makes no `noop`, and a decoded command consists of elements of its frame. -/
theorem tryFrom_ok {f : Frame} {cmd : Command} (h : tryFrom f = .ok cmd) :
    ∃ name argv, f = .array (some ((name :: argv).map fun b => .bulk (some b))) ∧
      Decoded argv cmd := by
  rcases tryFrom_cases f with he | ⟨name, argv, hf, hd⟩
  · rw [he] at h
    cases h
  · rw [h] at hd
    exact ⟨name, argv, hf, hd⟩

theorem tryFrom_ne_io (f : Frame) : tryFrom f ≠ .error .io := by
  intro h
  rcases tryFrom_cases f with he | ⟨name, argv, hf, hd⟩
  · rw [he] at h
    cases h
  · rw [h] at hd
    exact hd rfl

end Command
end Redlike
