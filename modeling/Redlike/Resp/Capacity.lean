import Mathlib.Algebra.GroupWithZero.Nat
import Redlike.Resp.Panics

/-!
# Framing under other allocators

The parser does not keep the announced length of an array: it closes a level when the
vector is full. `Vec::with_capacity` promises at least the room asked for. With more, an
array takes in what follows it, and since no encoding announces that much, the level never
closes. The proof counts the frames that the stack still wants: reading a frame takes one
away and adds what the allocator gave its arrays too much.
-/
namespace Redlike.Resp

open Lib.Incremental Grammar

mutual
/-- The lengths of the arrays with elements, at any depth, in the order they are written. -/
def Frame.arrayLengths : Frame → List Nat
  | .simpleString _ => []
  | .simpleError _ => []
  | .bulk _ => []
  | .integer _ => []
  | .array none => []
  | .array (some inner) =>
    (if inner.length = 0 then [] else [inner.length]) ++ Frame.arrayLengthsAll inner
def Frame.arrayLengthsAll : List Frame → List Nat
  | [] => []
  | f :: rest => Frame.arrayLengths f ++ Frame.arrayLengthsAll rest
end

/-- An allocator that never refuses and gives `cap n` for `n`. -/
def Allocator.ofCapacity (cap : Nat → Nat) : Allocator := fun n => some (cap n)

/-- What `cap` gives the arrays of the lengths `ns` too much. -/
def excess (cap : Nat → Nat) (ns : List Nat) : Nat := (ns.map fun n => cap n - n).sum

@[simp] theorem excess_nil (cap : Nat → Nat) : excess cap [] = 0 := rfl

@[simp] theorem excess_singleton (cap : Nat → Nat) (n : Nat) : excess cap [n] = cap n - n :=
  List.sum_singleton

theorem excess_append (cap : Nat → Nat) (ms ns : List Nat) :
    excess cap (ms ++ ns) = excess cap ms + excess cap ns := by
  simp [excess]

theorem excess_eq_zero {cap : Nat → Nat} (hcap : ∀ n, n ≤ cap n) {ns : List Nat} :
    excess cap ns = 0 ↔ ∀ n ∈ ns, cap n = n := by
  induction ns with
  | nil => simp
  | cons n ns ih =>
    have hn := hcap n
    have hone : cap n - n = 0 ↔ cap n = n := by omega
    rw [← List.singleton_append, excess_append, excess_singleton, Nat.add_eq_zero_iff, ih, hone,
      List.forall_mem_append, List.forall_mem_singleton]

/-! ## What a stack wants -/

/-- The room of a level beyond the next element. -/
def Level.spare (L : Level) : Nat := L.capacity - L.frames.length - 1

/-- The room of all levels beyond the element each of them waits for. -/
def spare (stack : List Level) : Nat := (stack.map Level.spare).sum

/-- How many frames have to be read before the last of the levels closes. Each level but
the lowest is itself the element that the one below it waits for. -/
def wanted (stack : List Level) : Nat := if stack.isEmpty then 0 else spare stack + 1

@[simp] theorem spare_nil : spare [] = 0 := rfl

@[simp] theorem spare_cons (L : Level) (stack : List Level) :
    spare (L :: stack) = L.capacity - L.frames.length - 1 + spare stack :=
  List.sum_cons

@[simp] theorem wanted_nil : wanted [] = 0 := rfl

@[simp] theorem wanted_cons (L : Level) (stack : List Level) :
    wanted (L :: stack) = spare (L :: stack) + 1 :=
  rfl

theorem wanted_eq_zero {stack : List Level} : wanted stack = 0 ↔ stack = [] := by
  cases stack <;> simp

/-- Every level waits for an element. -/
def HaveRoom (stack : List Level) : Prop := ∀ L ∈ stack, L.frames.length < L.capacity

theorem haveRoom_nil : HaveRoom [] := List.forall_mem_nil _

theorem haveRoom_cons {L : Level} {stack : List Level} :
    HaveRoom (L :: stack) ↔ L.frames.length < L.capacity ∧ HaveRoom stack :=
  List.forall_mem_cons

/-- What a level has left after an element was its spare room before. -/
theorem Level.push_spare {L : Level} (h : L.frames.length < L.capacity) (f : Frame) :
    (L.push f).capacity - (L.push f).frames.length = L.capacity - L.frames.length - 1 := by
  simp only [Level.push, if_pos h, List.length_append, List.length_singleton]
  omega

namespace Parser

/-- The close loop from a level with an element more than a moment ago. -/
theorem closeLoop_wanted (top : Level) {rest : List Level} (hrest : HaveRoom rest) :
    HaveRoom (closeLoop top rest).1 ∧
      wanted (closeLoop top rest).1 = top.capacity - top.frames.length + spare rest ∧
      (0 < top.capacity - top.frames.length + spare rest → (closeLoop top rest).2 = []) := by
  induction rest generalizing top with
  | nil =>
    rw [closeLoop, spare_nil, Nat.add_zero]
    by_cases hfull : top.isFull = true
    · rw [if_pos hfull, Level.isFull_iff.mp hfull]
      exact ⟨haveRoom_nil, wanted_nil, fun hpos => absurd hpos (Nat.lt_irrefl 0)⟩
    · rw [if_neg hfull]
      have hroom := Level.room_of_not_full hfull
      refine ⟨haveRoom_cons.mpr ⟨hroom, hrest⟩, ?_, fun _ => rfl⟩
      rw [wanted_cons, spare_cons, spare_nil]
      omega
  | cons next rest ih =>
    obtain ⟨hnext, hbelow⟩ := haveRoom_cons.mp hrest
    rw [closeLoop]
    by_cases hfull : top.isFull = true
    · -- the full level wants nothing, and the one below it has taken it in
      rw [if_pos hfull, Level.isFull_iff.mp hfull, Nat.zero_add, spare_cons,
        ← Level.push_spare hnext (.array (some top.frames))]
      exact ih (next.push (.array (some top.frames))) hbelow
    · rw [if_neg hfull]
      have hroom := Level.room_of_not_full hfull
      refine ⟨haveRoom_cons.mpr ⟨hroom, hrest⟩, ?_, fun _ => rfl⟩
      rw [wanted_cons, spare_cons]
      omega

/-- A frame taken in is one of those that were wanted. -/
theorem accept_wanted {p : Parser} (hp : HaveRoom p.stack) (f : Frame) :
    HaveRoom (p.accept f).1.stack ∧ wanted (p.accept f).1.stack = spare p.stack ∧
      (0 < spare p.stack → (p.accept f).2 = []) := by
  unfold accept
  cases hs : p.stack with
  | nil =>
    dsimp only
    rw [hs]
    exact ⟨haveRoom_nil, wanted_nil, fun hpos => absurd hpos (Nat.lt_irrefl 0)⟩
  | cons top rest =>
    rw [hs] at hp
    obtain ⟨htop, hrest⟩ := haveRoom_cons.mp hp
    rw [spare_cons, ← Level.push_spare htop f]
    exact closeLoop_wanted (top.push f) hrest

/-! ## Reading an encoding -/

/-- Reading `s` up to `rest` on top of `stack` leaves levels that want `k` frames, and
emits nothing as long as there are any. -/
def Leaves (alloc : Allocator) (s : Bytes) (stack : List Level) (rest : Bytes) (k : Nat) : Prop :=
  ∃ out levels, Runs (machine alloc) ⟨.start, s, stack⟩ out ⟨.start, rest, levels⟩ ∧
    HaveRoom levels ∧ wanted levels = k ∧ (0 < k → out = [])

theorem leaves_leaf {alloc : Allocator} {s rest : Bytes} {f : Frame} {stack : List Level}
    (hroom : HaveRoom stack) (h : item s = .leaf f rest) :
    Leaves alloc s stack rest (spare stack) := by
  have hrun : (item s).RunWith alloc ⟨.start, s, stack⟩ := item_runWith rfl
  obtain ⟨levels, hl⟩ := accept_eq_start f rest stack
  obtain ⟨hroom', hwanted, hout⟩ := accept_wanted (p := ⟨.start, rest, stack⟩) hroom f
  rw [h, Item.RunWith, hl] at hrun
  rw [hl] at hroom' hwanted
  exact ⟨_, levels, hrun, hroom', hwanted, hout⟩

/-- The elements of an array, read one after another into levels that want at least as many. -/
theorem leaves_elements {cap : Nat → Nat} {elements : List Frame}
    (ih : ∀ f ∈ elements, ∀ rest stack, HaveRoom stack →
      Leaves (.ofCapacity cap) (f.toBytes ++ rest) stack rest
        (spare stack + excess cap f.arrayLengths))
    (rest : Bytes) {stack : List Level} (hroom : HaveRoom stack) (hne : stack ≠ [])
    (hlen : elements.length ≤ spare stack + 1) :
    Leaves (.ofCapacity cap) (elements.flatMap Frame.toBytes ++ rest) stack rest
      (spare stack + 1 + excess cap (Frame.arrayLengthsAll elements) - elements.length) := by
  induction elements generalizing stack with
  | nil =>
    refine ⟨[], stack, .refl _, hroom, ?_, fun _ => rfl⟩
    rw [wanted, if_neg (by simpa using hne)]
    rfl
  | cons f elements ihl =>
    rw [List.length_cons] at hlen
    rw [List.flatMap_cons, List.append_assoc, Frame.arrayLengthsAll, excess_append, List.length_cons]
    obtain ⟨out, levels, hrun, hroom', hwanted, hout⟩ :=
      ih f (by simp) (elements.flatMap Frame.toBytes ++ rest) stack hroom
    cases elements with
    | nil =>
      rw [List.flatMap_nil, List.nil_append] at hrun
      refine ⟨out, levels, hrun, hroom', ?_, ?_⟩
      · rw [hwanted, Frame.arrayLengthsAll, excess_nil, List.length_nil]
        omega
      · rw [Frame.arrayLengthsAll, excess_nil, List.length_nil]
        intro hk
        exact hout (by omega)
    | cons g elements =>
      -- more elements are to come, so the levels still want some and nothing has been emitted
      rw [List.length_cons] at hlen
      rw [hout (by omega)] at hrun
      have hlevels : levels ≠ [] := by
        rintro rfl
        rw [wanted_nil] at hwanted
        omega
      rw [wanted, if_neg (by simpa using hlevels)] at hwanted
      obtain ⟨out', levels', hrun', hroom'', hwanted', hout'⟩ :=
        ihl (fun h hm => ih h (by simp [hm])) hroom' hlevels (by rw [List.length_cons]; omega)
      refine ⟨out', levels', hrun.trans hrun', hroom'', ?_, ?_⟩
      · rw [hwanted']
        omega
      · intro hk
        exact hout' (by omega)

theorem leaves_toBytes {cap : Nat → Nat} (hcap : ∀ n, n ≤ cap n) {f : Frame} (hn : f.NoCrlf)
    (hf : f.Fits) (rest : Bytes) {stack : List Level} (hroom : HaveRoom stack) :
    Leaves (.ofCapacity cap) (f.toBytes ++ rest) stack rest
      (spare stack + excess cap f.arrayLengths) := by
  induction f using Frame.induction generalizing rest stack with
  | simpleString inner => exact leaves_leaf hroom (item_simpleString rest hn)
  | simpleError inner => exact leaves_leaf hroom (item_simpleError rest hn)
  | bulk inner => exact leaves_leaf hroom (item_bulk rest hf)
  | integer inner => exact leaves_leaf hroom (item_integer inner rest)
  | nilArray => exact leaves_leaf hroom (item_nilArray rest)
  | array inner ih =>
    rw [Frame.NoCrlf, Frame.noCrlfAll_iff] at hn
    rw [Frame.Fits, Frame.fitsAll_iff] at hf
    have hitem := item_array rest hf.1
    by_cases h0 : inner.length = 0
    · have hnil := List.length_eq_zero_iff.mp h0
      subst hnil
      rw [if_pos h0] at hitem
      exact leaves_leaf hroom hitem
    · rw [if_neg h0] at hitem
      have hrun : (item (Frame.toBytes (.array (some inner)) ++ rest)).RunWith (.ofCapacity cap)
          ⟨.start, Frame.toBytes (.array (some inner)) ++ rest, stack⟩ := item_runWith rfl
      rw [hitem] at hrun
      have hopen := hrun.1 ⟨cap inner.length, [], Nat.zero_le _⟩ rfl
      have hle := hcap inner.length
      have hroom' : HaveRoom (⟨cap inner.length, [], Nat.zero_le _⟩ :: stack) := by
        refine haveRoom_cons.mpr ⟨?_, hroom⟩
        show 0 < cap inner.length
        omega
      have hspare : spare (⟨cap inner.length, [], Nat.zero_le _⟩ :: stack) =
          cap inner.length - 1 + spare stack :=
        spare_cons _ _
      obtain ⟨out, levels, hrun', hroom'', hwanted, hout⟩ :=
        leaves_elements (fun f hm rest _ hs => ih f hm (hn f hm) (hf.2 f hm) rest hs) rest hroom'
          (by simp) (by rw [hspare]; omega)
      have hexcess : excess cap (Frame.arrayLengths (.array (some inner))) =
          cap inner.length - inner.length + excess cap (Frame.arrayLengthsAll inner) := by
        rw [Frame.arrayLengths, if_neg h0, excess_append, excess_singleton]
      rw [hspare] at hwanted hout
      refine ⟨out, levels, hopen.trans hrun', hroom'', ?_, ?_⟩
      · rw [hwanted, hexcess]
        omega
      · rw [hexcess]
        intro hk
        exact hout (by omega)

/-! ## Exact arrays -/

theorem heads_elements {elements : List Frame}
    (ih : ∀ f ∈ elements, ∀ rest, heads (f.toBytes ++ rest) = f.arrayLengths ++ heads rest)
    (rest : Bytes) : heads (elements.flatMap Frame.toBytes ++ rest) =
      Frame.arrayLengthsAll elements ++ heads rest := by
  induction elements with
  | nil => rfl
  | cons f elements ihl =>
    rw [List.flatMap_cons, List.append_assoc, ih f (by simp), ihl fun g hg => ih g (by simp [hg]),
      Frame.arrayLengthsAll, List.append_assoc]

theorem heads_leaf {s rest : Bytes} {f : Frame} (h : item s = .leaf f rest) :
    heads s = heads rest := by
  rw [heads]
  split
  all_goals
    rename_i hit
    rw [h] at hit
    cases hit
  rfl

theorem heads_opened {s rest : Bytes} {n : Nat} (h : item s = .opened n rest) :
    heads s = n :: heads rest := by
  rw [heads]
  split
  all_goals
    rename_i hit
    rw [h] at hit
    cases hit
  rfl

/-- The grammar finds in an encoding the heads of the arrays that have elements. -/
theorem heads_toBytes {f : Frame} (hn : f.NoCrlf) (hf : f.Fits) (rest : Bytes) :
    heads (f.toBytes ++ rest) = f.arrayLengths ++ heads rest := by
  induction f using Frame.induction generalizing rest with
  | simpleString inner => exact heads_leaf (item_simpleString rest hn)
  | simpleError inner => exact heads_leaf (item_simpleError rest hn)
  | bulk inner => exact heads_leaf (item_bulk rest hf)
  | integer inner => exact heads_leaf (item_integer inner rest)
  | nilArray => exact heads_leaf (item_nilArray rest)
  | array inner ih =>
    rw [Frame.NoCrlf, Frame.noCrlfAll_iff] at hn
    rw [Frame.Fits, Frame.fitsAll_iff] at hf
    have hitem := item_array rest hf.1
    have hall := heads_elements (fun f hm rest => ih f hm (hn f hm) (hf.2 f hm) rest) rest
    rw [Frame.arrayLengths]
    by_cases h0 : inner.length = 0
    · rw [if_pos h0] at hitem ⊢
      rw [heads_leaf hitem, hall, List.nil_append]
    · rw [if_neg h0] at hitem ⊢
      rw [heads_opened hitem, hall]
      rfl

/-- Two allocators that agree on the array heads of an input make the parser emit the same. -/
theorem ends_of_agree {a b : Allocator} {s : Bytes} (h : ∀ n ∈ heads s, a n = b n)
    (stack : List Level) : ∃ out v q r, Ends (machine a) ⟨.start, s, stack⟩ out v q ∧
      Ends (machine b) ⟨.start, s, stack⟩ out v r := by
  induction hn : s.length using Nat.strongRecOn generalizing s stack with
  | ind n ih =>
    have ha : (item s).RunWith a ⟨.start, s, stack⟩ := item_runWith rfl
    have hb : (item s).RunWith b ⟨.start, s, stack⟩ := item_runWith rfl
    rw [heads] at h
    split at h
    · rename_i f rest hit
      rw [hit] at ha hb
      obtain ⟨levels, hl⟩ := accept_eq_start f rest stack
      rw [Item.RunWith, hl] at ha hb
      obtain ⟨out, v, q, r, hq, hr⟩ := ih rest.length (hn ▸ leaf_shorter hit) h levels rfl
      exact ⟨_, v, q, r, .of_runs ha hq, .of_runs hb hr⟩
    · rename_i rest hit
      rw [hit] at ha hb
      obtain ⟨out, v, q, r, hq, hr⟩ := ih rest.length (hn ▸ blank_shorter hit) h stack rfl
      exact ⟨_, v, q, r, .of_runs ha hq, .of_runs hb hr⟩
    · rename_i m rest hit
      rw [hit] at ha hb
      obtain ⟨hm, hrest⟩ := List.forall_mem_cons.mp h
      have hlevel : Level.withCapacity a m = Level.withCapacity b m := by
        rw [Level.withCapacity, hm, Level.withCapacity]
      cases hw : Level.withCapacity b m with
      | none =>
        obtain ⟨q, hq⟩ := ha.2 (hlevel.trans hw)
        obtain ⟨r, hr⟩ := hb.2 hw
        exact ⟨[], _, q, r, hq, hr⟩
      | some level =>
        obtain ⟨out, v, q, r, hq, hr⟩ :=
          ih rest.length (hn ▸ opened_shorter hit) hrest (level :: stack) rfl
        exact ⟨_, v, q, r, .of_runs (ha.1 level (hlevel.trans hw)) hq, .of_runs (hb.1 level hw) hr⟩
    · rename_i hit
      rw [hit] at ha hb
      obtain ⟨q, hq⟩ := ha
      obtain ⟨r, hr⟩ := hb
      exact ⟨[], none, q, r, hq, hr⟩
    · rename_i e hit
      rw [hit] at ha hb
      obtain ⟨q, hq⟩ := ha
      obtain ⟨r, hr⟩ := hb
      exact ⟨[], _, q, r, hq, hr⟩

/-! ## Encodings -/

/-- A whole encoding ends in a wait. What comes out is the frame if no array got too much
room, and nothing otherwise. -/
theorem encoding_ends {cap : Nat → Nat} (hcap : ∀ n, n ≤ cap n) {f : Frame} (hn : f.NoCrlf)
    (hf : f.Fits) :
    ∃ out levels, Ends (machine (.ofCapacity cap)) (new.feed f.toBytes) out none ⟨.start, [], levels⟩ ∧
      ((∀ n ∈ f.arrayLengths, cap n = n) → out = [f] ∧ levels = []) ∧
      ((∃ n ∈ f.arrayLengths, cap n ≠ n) → out = [] ∧ levels ≠ []) := by
  obtain ⟨out, levels, hrun, -, hwanted, hout⟩ := leaves_toBytes hcap hn hf [] haveRoom_nil
  rw [List.append_nil] at hrun
  rw [spare_nil, Nat.zero_add] at hwanted hout
  have hends : Ends (machine (.ofCapacity cap)) (new.feed f.toBytes) out none ⟨.start, [], levels⟩ :=
    ⟨_, hrun, rfl, rfl⟩
  refine ⟨out, levels, hends, ?_, ?_⟩
  · intro hexact
    have hagree : ∀ n ∈ heads f.toBytes, Allocator.ofCapacity cap n = Allocator.exact n := by
      have hheads := heads_toBytes hn hf []
      rw [List.append_nil, heads_nil, List.append_nil] at hheads
      rw [hheads]
      exact fun n hn => congrArg some (hexact n hn)
    obtain ⟨out', v, q, r, ha, hb⟩ := ends_of_agree hagree []
    have hsame : out = out' := (hends.unique ha).1
    have hf : out' = [f] := by
      have hexact := encodings_end [f] (by simpa using hn) (by simpa using hf)
      rw [List.flatMap_singleton] at hexact
      exact (hb.unique hexact).1
    refine ⟨hsame.trans hf, wanted_eq_zero.mp ?_⟩
    rw [hwanted, excess_eq_zero hcap]
    exact hexact
  · intro hmore
    have hpos : excess cap f.arrayLengths ≠ 0 := by
      rw [ne_eq, excess_eq_zero hcap]
      push Not
      exact hmore
    refine ⟨hout (by omega), ?_⟩
    rw [ne_eq, ← wanted_eq_zero, hwanted]
    exact hpos

/-- Calls on the pieces of an input whose run ends in a wait: none fails, and together they
emit what the run does. -/
theorem parseAll_of_ends {alloc : Allocator} {chunks : List Bytes} {out : List Frame} {q : Parser}
    (hne : chunks ≠ []) (h : Ends (machine alloc) (new.feed chunks.flatten) out none q) :
    ∃ rs, new.parseAll alloc chunks = some (rs, q) ∧ rs.flatMap ParseResult.frames = out ∧
      ∀ r ∈ rs, r.error = none := by
  cases hp : new.parseAll alloc chunks with
  | none =>
    obtain ⟨out', q', hq'⟩ := parseAll_none hp
    cases (h.unique hq').2.1
  | some pair =>
    obtain ⟨rs, q'⟩ := pair
    have hruns := parseAll_chunk_runs hp
    obtain ⟨c, cs, rfl⟩ := List.exists_cons_of_ne_nil hne
    obtain ⟨last, hlast, hends⟩ := chunk_runs_ends hruns
    obtain ⟨hout, hverdict, rfl⟩ := hends.unique h
    rw [List.flatMap_map] at hout
    refine ⟨rs, rfl, hout, ?_⟩
    intro r hr
    have hnone := chunk_runs_unfaulted hruns hlast hverdict _ (List.mem_map_of_mem hr)
    exact Option.map_eq_none_iff.mp hnone

/-- However the encoding is cut, no call fails, and the frame comes out, alone and whole. -/
def ReadsBack (cap : Nat → Nat) (f : Frame) : Prop :=
  ∀ chunks : List Bytes, chunks.flatten = f.toBytes →
    ∃ rs p, new.parseAll (.ofCapacity cap) chunks = some (rs, p) ∧
      rs.flatMap ParseResult.frames = [f] ∧ ∀ r ∈ rs, r.error = none

theorem encoding_chunks_ne_nil {f : Frame} {chunks : List Bytes} (h : chunks.flatten = f.toBytes) :
    chunks ≠ [] := by
  rintro rfl
  have hpos := toBytes_length_pos f
  rw [← h] at hpos
  exact absurd hpos (by simp)

/-- A frame is read back from its encoding exactly when the allocator gives each of its arrays
the room it announces. With more room for any of them, at any depth, no chunking makes the
parser emit anything, and it goes on waiting for elements that nobody has announced. -/
theorem reads_back_iff_exact {cap : Nat → Nat} (hcap : ∀ n, n ≤ cap n) {f : Frame} (hn : f.NoCrlf)
    (hf : f.Fits) :
    (ReadsBack cap f ↔ ∀ n ∈ f.arrayLengths, cap n = n) ∧
    ((∃ n ∈ f.arrayLengths, cap n ≠ n) → ∀ chunks : List Bytes, chunks.flatten = f.toBytes →
      ∃ rs p, new.parseAll (.ofCapacity cap) chunks = some (rs, p) ∧ p.stack ≠ [] ∧
        rs.flatMap ParseResult.frames = [] ∧ ∀ r ∈ rs, r.error = none) := by
  obtain ⟨out, levels, hends, hexact, hmore⟩ := encoding_ends hcap hn hf
  have calls (chunks : List Bytes) (hc : chunks.flatten = f.toBytes) :
      ∃ rs, new.parseAll (.ofCapacity cap) chunks = some (rs, ⟨.start, [], levels⟩) ∧
        rs.flatMap ParseResult.frames = out ∧ ∀ r ∈ rs, r.error = none :=
    parseAll_of_ends (encoding_chunks_ne_nil hc) (hc ▸ hends)
  have silent (h : ∃ n ∈ f.arrayLengths, cap n ≠ n) (chunks : List Bytes)
      (hc : chunks.flatten = f.toBytes) :
      ∃ rs p, new.parseAll (.ofCapacity cap) chunks = some (rs, p) ∧ p.stack ≠ [] ∧
        rs.flatMap ParseResult.frames = [] ∧ ∀ r ∈ rs, r.error = none := by
    obtain ⟨rfl, hlevels⟩ := hmore h
    obtain ⟨rs, hrs, hout, herr⟩ := calls chunks hc
    exact ⟨rs, _, hrs, hlevels, hout, herr⟩
  refine ⟨⟨?_, ?_⟩, silent⟩
  · intro hreads
    by_contra hne
    push Not at hne
    have hc : [f.toBytes].flatten = f.toBytes := List.flatten_singleton
    obtain ⟨rs, p, hrs, hout, -⟩ := hreads [f.toBytes] hc
    obtain ⟨rs', p', hrs', -, hout', -⟩ := silent hne [f.toBytes] hc
    rw [hrs] at hrs'
    cases hrs'
    rw [hout] at hout'
    cases hout'
  · intro h chunks hc
    obtain ⟨rs, hrs, hout, herr⟩ := calls chunks hc
    exact ⟨rs, _, hrs, hout.trans (hexact h).1, herr⟩

/-- An allocator that rounds up to even: it reads back a pair, cut inside, but no singleton. -/
theorem reads_back_iff_exact_even :
    (∀ n, n ≤ n + n % 2) ∧
    ReadsBack (fun n => n + n % 2) (.array (some [.integer 1, .bulk (some [120])])) ∧
    ¬ ReadsBack (fun n => n + n % 2) (.array (some [.integer 1])) := by
  have hcap : ∀ n, n ≤ n + n % 2 := fun n => Nat.le_add_right _ _
  refine ⟨hcap, ?_, ?_⟩
  · refine (reads_back_iff_exact hcap ?_ ?_).1.mpr (by decide)
    · simp [Frame.NoCrlf, Frame.NoCrlfAll]
    · simp [Frame.Fits, Frame.FitsAll]
  · intro h
    have hall := (reads_back_iff_exact hcap (f := .array (some [.integer 1])) ?_ ?_).1.mp h
    · exact absurd hall (by decide)
    · simp [Frame.NoCrlf, Frame.NoCrlfAll]
    · simp [Frame.Fits, Frame.FitsAll]

/-- With one element more than asked for, an array of one element is never closed. -/
theorem roomy_allocator_swallows_array :
    (∀ n, n ≤ n + 1) ∧ (Frame.array (some [.integer 1])).NoCrlf ∧
    new.parse (.ofCapacity (· + 1)) (Frame.toBytes (.array (some [.integer 1]))) =
      some (.complete [], ⟨.start, [], [⟨2, [.integer 1], by decide⟩]⟩) ∧
    ¬ ReadsBack (· + 1) (.array (some [.integer 1])) := by
  have hrun : new.parse (.ofCapacity (· + 1)) (Frame.toBytes (.array (some [.integer 1]))) =
      some (.complete [], ⟨.start, [], [⟨2, [.integer 1], by decide⟩]⟩) := by
    decide +kernel
  refine ⟨fun n => Nat.le_succ n, by simp [Frame.NoCrlf, Frame.NoCrlfAll], hrun, ?_⟩
  intro h
  obtain ⟨rs, p, hrs, hout, -⟩ := h [_] List.flatten_singleton
  rw [parseAll, hrun] at hrs
  cases hrs
  cases hout

end Parser
end Redlike.Resp
