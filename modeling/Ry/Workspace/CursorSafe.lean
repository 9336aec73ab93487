import Ry.Workspace.TagCursor
import Ry.Workspace.TagsExact

/-! # The walk stays within the slice

The cursor's walk does what the walk over the rest of the stream does, and stops for nothing but
a malformed stream: its arithmetic stays in range, the cursor only moves forward, to the end of
the slice at most, and a word is read often enough for the fuel to last.
-/

namespace Ry

/-- The cursor is within the slice and never moved back. -/
structure Cursor.Ok (s : ByteSlice) (c : Cursor) : Prop where
  le_length : c.pos ≤ s.bytes.length
  forward : (c.pos :: c.trail).Pairwise (· ≥ ·)

/-- The cursor as the rest of the stream. -/
def Cursor.walker (s : ByteSlice) (c : Cursor) : Walker := ⟨s.bytes.drop c.pos, c.refs⟩

namespace CursorWalk

variable {α β : Type} {s : ByteSlice} {room k l : Nat} {c : Cursor}

/-- The cursor's step ends as the stream's does, `cost` bytes further if it succeeds. -/
structure Agrees (s : ByteSlice) (cost : Nat) (c : Cursor) (r : Except Stop α × Cursor)
    (out : Option (α × Walker)) : Prop where
  ok : r.2.Ok s
  le : c.pos ≤ r.2.pos
  success : ∀ a, r.1 = .ok a → c.pos + cost ≤ r.2.pos ∧ out = some (a, r.2.walker s)
  failure : ∀ e, r.1 = .error e → e = .malformed ∧ out = none

/-- `m` agrees with `m'` from every cursor that leaves at most `room` bytes. -/
def Follows (s : ByteSlice) (room cost : Nat) (m : CursorWalk α) (m' : TagWalk α) : Prop :=
  ∀ c : Cursor, c.Ok s → s.bytes.length - c.pos ≤ room → Agrees s cost c (m s c) (m' (c.walker s))

theorem Follows.mono {m : CursorWalk α} {m' : TagWalk α} {room' k' : Nat}
    (h : Follows s room k m m') (hroom : room' ≤ room) (hk : k' ≤ k) : Follows s room' k' m m' := by
  intro c hc hleft
  have hc' := h c hc (hleft.trans hroom)
  refine ⟨hc'.ok, hc'.le, fun a ha => ?_, hc'.failure⟩
  obtain ⟨hle, hout⟩ := hc'.success a ha
  exact ⟨by omega, hout⟩

theorem agrees_ok {k : Nat} {a : α} {c' : Cursor} (hok : c'.Ok s) (hle : c.pos + k ≤ c'.pos) :
    Agrees s k c (.ok a, c') (some (a, c'.walker s)) where
  ok := hok
  le := (Nat.le_add_right _ _).trans hle
  success := by
    rintro _ ⟨⟩
    exact ⟨hle, rfl⟩
  failure := by
    intro e he
    cases he

theorem agrees_malformed {k : Nat} {c' : Cursor} (hok : c'.Ok s) (hle : c.pos ≤ c'.pos) :
    Agrees s k c ((.error .malformed, c') : Except Stop α × Cursor) none where
  ok := hok
  le := hle
  success := by
    intro a ha
    cases ha
  failure := by
    rintro _ ⟨⟩
    exact ⟨rfl, rfl⟩

theorem follows_pure (a : α) : Follows s room 0 (pure a) (pure a) := fun _ hc _ =>
  agrees_ok hc (Nat.le_refl _)

theorem follows_fail : Follows s room k (fail : CursorWalk α) TagWalk.fail := fun _ hc _ =>
  agrees_malformed hc (Nat.le_refl _)

theorem bind_ok {m : CursorWalk α} {f : α → CursorWalk β} {a : α} {d : Cursor}
    (h : m s c = (.ok a, d)) : (m >>= f) s c = f a s d := by
  dsimp only [bind]
  rw [h]

theorem bind_error {m : CursorWalk α} {f : α → CursorWalk β} {e : Stop} {d : Cursor}
    (h : m s c = (.error e, d)) : (m >>= f) s c = (.error e, d) := by
  dsimp only [bind]
  rw [h]

/-- What follows a step that reads `k` bytes has `k` bytes less to go. -/
theorem Follows.bind_of {P : α → Prop} {m : CursorWalk α} {m' : TagWalk α} {f : α → CursorWalk β}
    {f' : α → TagWalk β} (hm : Follows s room k m m') (hP : ∀ c a c', m s c = (.ok a, c') → P a)
    (hf : ∀ a, P a → k ≤ room → Follows s (room - k) l (f a) (f' a)) :
    Follows s room (k + l) (m >>= f) (m' >>= f') := by
  intro c hc hleft
  have hagree := hm c hc hleft
  rcases hr : m s c with ⟨r, c'⟩
  rw [hr] at hagree
  cases r with
  | ok a =>
    obtain ⟨hle, hout⟩ := hagree.success a rfl
    dsimp only at hle hout
    have hlength := hagree.ok.le_length
    dsimp only at hlength
    have hnext := hf a (hP c a c' hr) (by omega) c' hagree.ok (by omega)
    rw [bind_ok hr, TagWalk.bind_of_eq hout]
    refine ⟨hnext.ok, hagree.le.trans hnext.le, fun b hb => ?_, hnext.failure⟩
    obtain ⟨hle', hout'⟩ := hnext.success b hb
    exact ⟨by omega, hout'⟩
  | error e =>
    obtain ⟨rfl, hout⟩ := hagree.failure e rfl
    rw [bind_error hr, TagWalk.bind_apply, hout]
    exact agrees_malformed hagree.ok hagree.le

theorem Follows.bind {m : CursorWalk α} {m' : TagWalk α} {f : α → CursorWalk β}
    {f' : α → TagWalk β} (hm : Follows s room k m m')
    (hf : k ≤ room → ∀ a, Follows s (room - k) 0 (f a) (f' a)) :
    Follows s room k (m >>= f) (m' >>= f') :=
  hm.bind_of (P := fun _ => True) (fun _ _ _ _ => trivial) fun a _ hk => hf hk a

theorem Follows.andThen {m : CursorWalk α} {m' : TagWalk α} {f : α → CursorWalk β}
    {f' : α → TagWalk β} (hm : Follows s room k m m')
    (hf : ∀ a, Follows s (room - k) 0 (f a) (f' a)) : Follows s room k (m >>= f) (m' >>= f') :=
  hm.bind fun _ => hf

/-! ## Reading -/

theorem slice_ok {start stop : Nat} (h : start ≤ stop ∧ stop ≤ s.bytes.length) :
    slice start stop s c = (.ok ((s.bytes.drop start).take (stop - start)), c) := if_pos h

theorem slice_error {start stop : Nat} (h : ¬ (start ≤ stop ∧ stop ≤ s.bytes.length)) :
    slice start stop s c = (.error .malformed, c) := if_neg h

theorem checkedAdd_ok {a b : Nat} (h : a + b < 2 ^ 64) :
    checkedAdd a b s c = (.ok (a + b), c) := by
  rw [checkedAdd, if_pos h]
  rfl

theorem checkedAdd_error {a b : Nat} (h : ¬ a + b < 2 ^ 64) :
    checkedAdd a b s c = (.error .malformed, c) := by
  rw [checkedAdd, if_neg h]
  rfl

@[simp] theorem length_walker (s : ByteSlice) (c : Cursor) :
    (c.walker s).rest.length = s.bytes.length - c.pos :=
  List.length_drop

/-- The next `len` bytes and the offset after them, from an operation that starts with both
checks; an offset out of range is past the end. -/
theorem checked_slice {f : Nat → List UInt8 → CursorWalk α} {len : Nat} (hc : c.Ok s)
    {r : Except Stop α × Cursor}
    (hok : len ≤ s.bytes.length - c.pos →
      f (c.pos + len) ((s.bytes.drop c.pos).take len) s c = r)
    (herror : ¬ len ≤ s.bytes.length - c.pos → r = (.error .malformed, c)) :
    (do let pos ← position
        let stop ← checkedAdd pos len
        let chunk ← slice pos stop
        f stop chunk : CursorWalk α) s c = r := by
  have hbound := s.bound
  have hle := hc.le_length
  rw [bind_ok (a := c.pos) (d := c) rfl]
  by_cases hlen : len ≤ s.bytes.length - c.pos
  · rw [bind_ok (checkedAdd_ok (by omega)), bind_ok (slice_ok ⟨by omega, by omega⟩),
      Nat.add_sub_cancel_left, hok hlen]
  · rw [herror hlen]
    by_cases hadd : c.pos + len < 2 ^ 64
    · rw [bind_ok (checkedAdd_ok hadd), bind_error (slice_error (by omega))]
    · rw [bind_error (checkedAdd_error hadd)]

theorem follows_take (len : Nat) : Follows s room len (take len) (TagWalk.take len) := by
  intro c hc _
  have hle := hc.le_length
  by_cases hlen : len ≤ s.bytes.length - c.pos
  · have htake : take len s c = (.ok ((s.bytes.drop c.pos).take len),
        { c with pos := c.pos + len, trail := c.pos :: c.trail }) :=
      checked_slice hc (fun _ => rfl) fun h => absurd hlen h
    have hout : TagWalk.take len (c.walker s) = some ((s.bytes.drop c.pos).take len,
        ({ c with pos := c.pos + len, trail := c.pos :: c.trail } : Cursor).walker s) := by
      rw [TagWalk.take, if_pos (by rwa [length_walker])]
      simp [Cursor.walker, List.drop_drop]
    rw [htake, hout]
    refine agrees_ok ⟨by dsimp only; omega, List.pairwise_cons.mpr ⟨fun p hp => ?_, hc.forward⟩⟩
      (Nat.le_refl _)
    have hforward := List.pairwise_cons.mp hc.forward
    rcases List.mem_cons.mp hp with rfl | hp
    · exact Nat.le_add_right _ _
    · exact (hforward.1 p hp).trans (Nat.le_add_right _ _)
  · have htake : take len s c = (.error .malformed, c) :=
      checked_slice hc (fun h => absurd h hlen) fun _ => rfl
    have hout : TagWalk.take len (c.walker s) = none := by
      rw [TagWalk.take, if_neg (by rwa [length_walker])]
    rw [htake, hout]
    exact agrees_malformed hc (Nat.le_refl _)

theorem follows_peekU32 : Follows s room 0 peekU32 TagWalk.peekU32 := by
  intro c hc _
  by_cases hlen : 4 ≤ s.bytes.length - c.pos
  · have hpeek : peekU32 s c = (.ok (ofBe ((s.bytes.drop c.pos).take 4)), c) :=
      checked_slice hc (fun _ => rfl) fun h => absurd hlen h
    have hout : TagWalk.peekU32 (c.walker s) =
        some (ofBe ((s.bytes.drop c.pos).take 4), c.walker s) := by
      rw [TagWalk.peekU32, if_pos (by rwa [length_walker])]
      rfl
    rw [hpeek, hout]
    exact agrees_ok hc (Nat.le_refl _)
  · have hpeek : peekU32 s c = (.error .malformed, c) :=
      checked_slice hc (fun h => absurd h hlen) fun _ => rfl
    have hout : TagWalk.peekU32 (c.walker s) = none := by
      rw [TagWalk.peekU32, if_neg (by rwa [length_walker])]
    rw [hpeek, hout]
    exact agrees_malformed hc (Nat.le_refl _)

theorem follows_u32 : Follows s room 4 u32 TagWalk.u32 :=
  (follows_take 4).andThen fun _ => follows_pure _

theorem follows_i32 : Follows s room 4 i32 TagWalk.i32 :=
  follows_u32.andThen fun _ => follows_pure _

theorem follows_usize (n : Int) : Follows s room 0 (usize n) (TagWalk.usize n) := by
  unfold usize TagWalk.usize
  split
  · exact follows_pure _
  · exact follows_fail

/-- The two halves of a count do not overlap. -/
theorem shift_or {hi lo : Nat} (hhi : hi < 2 ^ 32) (hlo : lo < 2 ^ 32) :
    (hi <<< 32 % 2 ^ 64) ||| lo = hi * 2 ^ 32 + lo := by
  have hmod : hi <<< 32 % 2 ^ 64 = hi <<< 32 := by
    rw [Nat.shiftLeft_eq]
    exact Nat.mod_eq_of_lt (by omega)
  rw [hmod, ← Nat.shiftLeft_add_eq_or_of_lt hlo, Nat.shiftLeft_eq]

theorem follows_ite {p : Prop} [Decidable p] {m n : CursorWalk α} {m' n' : TagWalk α}
    (hm : p → Follows s room k m m') (hn : ¬ p → Follows s room k n n') :
    Follows s room k (if p then m else n) (if p then m' else n') := by
  by_cases hp : p
  · rw [if_pos hp, if_pos hp]
    exact hm hp
  · rw [if_neg hp, if_neg hp]
    exact hn hp

theorem ofBe_lt (bytes : List UInt8) : ofBe bytes < 256 ^ bytes.length := by
  induction bytes using List.reverseRecOn with
  | nil => simp [ofBe]
  | append_singleton bytes b ih =>
    have hb := b.toNat_lt
    simp only [ofBe, List.foldl_append, List.foldl_cons, List.foldl_nil, List.length_append,
      List.length_singleton, Nat.pow_succ] at ih ⊢
    omega

theorem bind_eq_ok {m : CursorWalk α} {f : α → CursorWalk β} {b : β} {c'' : Cursor}
    (h : (m >>= f) s c = (.ok b, c'')) : ∃ a c', m s c = (.ok a, c') ∧ f a s c' = (.ok b, c'') := by
  rcases hm : m s c with ⟨a | a, c'⟩
  · rw [bind_error hm] at h
    cases h
  · exact ⟨a, c', rfl, (bind_ok hm).symm.trans h⟩

theorem length_take_le {len : Nat} {chunk : List UInt8} {c' : Cursor}
    (h : take len s c = (.ok chunk, c')) : chunk.length ≤ len := by
  obtain ⟨pos, _, _, h⟩ := bind_eq_ok h
  obtain ⟨stop, _, hstop, h⟩ := bind_eq_ok h
  obtain ⟨bytes, _, hslice, h⟩ := bind_eq_ok h
  obtain ⟨_, _, _, h⟩ := bind_eq_ok h
  cases h
  unfold checkedAdd at hstop
  split at hstop
  · cases hstop
    unfold slice at hslice
    split at hslice
    · cases hslice
      rw [Nat.add_sub_cancel_left]
      exact List.length_take_le _ _
    · cases hslice
  · cases hstop

theorem u32_lt (c : Cursor) (word : Nat) (c' : Cursor) (h : u32 s c = (.ok word, c')) :
    word < 2 ^ 32 := by
  obtain ⟨bytes, _, htake, h⟩ := bind_eq_ok h
  cases h
  have hpow : (256 : Nat) ^ bytes.length ≤ 256 ^ 4 :=
    Nat.pow_le_pow_right (by decide) (length_take_le htake)
  exact (ofBe_lt bytes).trans_le (hpow.trans (by decide))

theorem follows_vecLen : Follows s room 4 vecLen TagWalk.vecLen := by
  refine follows_i32.andThen fun first => follows_ite (fun _ => ?_) fun _ => follows_usize first
  refine (follows_u32.bind_of u32_lt fun hi hhi _ => follows_u32.bind_of (l := 0) u32_lt
    fun lo hlo _ => ?_).mono (Nat.le_refl _) (Nat.zero_le _)
  rw [shift_or hhi hlo]
  exact follows_pure _

theorem follows_skipBytes (count width : Nat) :
    Follows s room 0 (skipBytes count width) (TagWalk.skipBytes count width) := by
  by_cases hmul : count * width < 2 ^ 64
  · have hstep : skipBytes count width = (do let _ ← take (count * width)) := by
      rw [skipBytes, checkedMul, if_pos hmul]
      rfl
    rw [hstep]
    exact ((follows_take _).mono (Nat.le_refl _) (Nat.zero_le _)).andThen fun _ => follows_pure ()
  · intro c hc _
    have hbound := s.bound
    have hfail : skipBytes count width s c = (.error .malformed, c) := by
      rw [skipBytes, checkedMul, if_neg hmul]
      rfl
    have hout : TagWalk.skipBytes count width (c.walker s) = none := by
      rw [TagWalk.skipBytes, TagWalk.bind_apply, TagWalk.take, if_neg]
      · rfl
      · rw [length_walker]
        omega
    rw [hfail, hout]
    exact agrees_malformed hc (Nat.le_refl _)

theorem follows_checkCount (count : Nat) :
    Follows s room 0 (checkCount count) (TagWalk.checkCount count) := by
  intro c hc _
  have hsub : sub s.bytes.length c.pos s c = (.ok (s.bytes.length - c.pos), c) := by
    rw [sub, if_pos hc.le_length]
    rfl
  have hleft : checkCount count s c =
      (if (s.bytes.length - c.pos) / 4 < count then fail else pure () : CursorWalk Unit) s c := by
    rw [checkCount, bind_ok (a := s.bytes.length) (d := c) rfl, bind_ok (a := c.pos) (d := c) rfl,
      bind_ok hsub]
  rw [hleft, TagWalk.checkCount, length_walker]
  split
  · exact agrees_malformed hc (Nat.le_refl _)
  · exact agrees_ok hc (Nat.le_refl _)

theorem follows_register (name : Option SymbolName) :
    Follows s room 0 (register name) (TagWalk.register name) := fun _ hc _ =>
  agrees_ok ⟨hc.le_length, hc.forward⟩ (Nat.le_refl _)

theorem follows_lookup (index : Nat) : Follows s room 0 (lookup index) (TagWalk.lookup index) := by
  intro c hc _
  cases index with
  | zero => exact agrees_malformed hc (Nat.le_refl _)
  | succ slot =>
    have hwalker : TagWalk.lookup (slot + 1) (c.walker s) = c.refs[slot]?.map (·, c.walker s) := rfl
    rw [hwalker]
    unfold lookup
    cases hslot : c.refs[slot]? with
    | none => simpa [hslot] using agrees_malformed hc (Nat.le_refl _)
    | some name => simpa [hslot] using agrees_ok hc (Nat.le_refl _)

theorem follows_times {step : CursorWalk α} {step' : TagWalk α}
    (h : ∀ room' ≤ room, Follows s room' 0 step step') (count : Nat) :
    Follows s room 0 (times count step) (TagWalk.times count step') := by
  induction count generalizing room with
  | zero => exact follows_pure ()
  | succ count ih =>
    exact (h room (Nat.le_refl _)).andThen fun _ => ih h

theorem follows_optional {step : CursorWalk α} {step' : TagWalk α} (present : Bool)
    (h : Follows s room 0 step step') :
    Follows s room 0 (optional present step) (TagWalk.optional present step') :=
  follows_ite (fun _ => h.andThen fun _ => follows_pure ()) fun _ => follows_pure ()

theorem follows_deeper {step : Nat → CursorWalk α} {step' : TagWalk α} {depth : Nat}
    (hdepth : depth ≤ TagWalk.maxWalkDepth) (h : Follows s room k (step (depth + 1)) step') :
    Follows s room k (deeper depth step) step' := by
  have hmax : TagWalk.maxWalkDepth = 256 := rfl
  have hdeeper : deeper depth step = step (depth + 1) := by
    rw [deeper, add, if_pos (by omega)]
    rfl
  rwa [hdeeper]

theorem follows_charsxpBytes : Follows s room 4 charsxpBytes TagWalk.charsxpBytes := by
  refine follows_u32.andThen fun word => follows_ite (fun _ => follows_fail) fun _ => ?_
  refine (follows_i32.mono (Nat.le_refl _) (Nat.zero_le _)).andThen fun len =>
    follows_ite (fun _ => follows_pure _) fun _ => ?_
  refine (follows_usize _).andThen fun n => ?_
  exact ((follows_take n).mono (Nat.le_refl _) (Nat.zero_le _)).andThen fun _ => follows_pure _

end CursorWalk

namespace TagWalk

variable {α β : Type}

/-- The step neither reads nor changes the reference table. -/
def Refless (m : TagWalk α) : Prop :=
  ∀ rest refs refs', m ⟨rest, refs'⟩ = (m ⟨rest, refs⟩).map fun r => (r.1, ⟨r.2.rest, refs'⟩)

theorem refless_pure (a : α) : Refless (pure a : TagWalk α) := fun _ _ _ => rfl

theorem refless_fail : Refless (fail : TagWalk α) := fun _ _ _ => rfl

theorem Refless.bind {m : TagWalk α} {f : α → TagWalk β} (hm : Refless m)
    (hf : ∀ a, Refless (f a)) : Refless (m >>= f) := by
  intro rest refs refs'
  rw [bind_apply, bind_apply, hm rest refs refs']
  cases hr : m ⟨rest, refs⟩ with
  | none => rfl
  | some r => exact hf r.1 r.2.rest r.2.refs refs'

theorem refless_ite {p : Prop} [Decidable p] {m n : TagWalk α} (hm : Refless m) (hn : Refless n) :
    Refless (if p then m else n) := by
  split
  · exact hm
  · exact hn

theorem refless_take (len : Nat) : Refless (take len) := by
  intro rest refs refs'
  unfold take
  dsimp only
  split <;> rfl

theorem refless_u32 : Refless u32 := (refless_take 4).bind fun _ => refless_pure _

theorem refless_i32 : Refless i32 := refless_u32.bind fun _ => refless_pure _

theorem refless_charsxpBytes : Refless charsxpBytes := by
  refine refless_u32.bind fun word => refless_ite refless_fail (refless_i32.bind fun len =>
    refless_ite (refless_pure _) (Refless.bind ?_ fun n =>
      (refless_take n).bind fun _ => refless_pure _))
  exact refless_ite (refless_pure _) refless_fail

/-- The walk of the same bytes with another table. -/
theorem Refless.some {m : TagWalk α} (h : Refless m) {rest : List UInt8}
    {refs : List (Option SymbolName)} {a : α} {w : Walker} (hm : m ⟨rest, refs⟩ = some (a, w)) :
    w.refs = refs ∧ ∀ refs', m ⟨rest, refs'⟩ = some (a, ⟨w.rest, refs'⟩) := by
  have hsame := h rest refs refs
  rw [hm] at hsame
  have hrefs : w = ⟨w.rest, refs⟩ := congrArg Prod.snd (Option.some.inj hsame)
  refine ⟨by rw [hrefs], fun refs' => ?_⟩
  rw [h rest refs refs', hm]
  rfl

end TagWalk

namespace CursorWalk

variable {α β : Type} {s : ByteSlice} {room k l : Nat} {c : Cursor}

/-- The source takes the symbol's place in the table before it reads the name. -/
theorem follows_symbolName : Follows s room 4 symbolName TagWalk.symbolName := by
  intro c hc hleft
  have hfollows : Follows s room 4 charsxpBytes TagWalk.charsxpBytes := follows_charsxpBytes
  have hagree := hfollows { c with refs := c.refs ++ [none] } ⟨hc.le_length, hc.forward⟩ hleft
  have hstart : symbolName s c = (charsxpBytes >>= fun content => decodeName content >>=
      fun name => setEntry c.refs.length name >>= fun _ => pure name) s
        { c with refs := c.refs ++ [none] } := rfl
  rw [hstart]
  rcases hr : charsxpBytes s { c with refs := c.refs ++ [none] } with ⟨r, c'⟩
  rw [hr] at hagree
  cases r with
  | error e =>
    obtain ⟨rfl, hout⟩ := hagree.failure e rfl
    have hnone : TagWalk.charsxpBytes (c.walker s) = none :=
      (TagWalk.refless_charsxpBytes _ (c.refs ++ [none]) c.refs).trans
        (congrArg (Option.map _) hout)
    rw [bind_error hr, TagWalk.symbolName, TagWalk.bind_apply, hnone]
    exact agrees_malformed hagree.ok hagree.le
  | ok content =>
    obtain ⟨hle, hout⟩ := hagree.success content rfl
    have hmoved : c.pos ≤ c'.pos := hagree.le
    obtain ⟨hrefs, hsame⟩ := TagWalk.refless_charsxpBytes.some hout
    have hread : TagWalk.charsxpBytes (c.walker s) = some (content, ⟨s.bytes.drop c'.pos, c.refs⟩) :=
      hsame c.refs
    have hset : ∀ name, setEntry c.refs.length name s c' =
        (.ok (), { c' with refs := c.refs ++ [name] }) := by
      intro name
      have hrefs : c'.refs = c.refs ++ [none] := hrefs
      simp [setEntry, hrefs]
    have hok : ∀ name, ({ c' with refs := c.refs ++ [name] } : Cursor).Ok s := fun name =>
      ⟨hagree.ok.le_length, hagree.ok.forward⟩
    rw [bind_ok hr, TagWalk.symbolName, TagWalk.bind_of_eq hread]
    cases content with
    | none =>
      rw [bind_ok (a := none) (d := c') rfl, bind_ok (hset none)]
      exact agrees_ok (hok none) hle
    | some bytes =>
      cases hname : fromUtf8 bytes with
      | none =>
        rw [bind_error (e := .malformed) (d := c') (by simp [decodeName, hname, fail, stop])]
        simp only [hname]
        exact agrees_malformed hagree.ok hmoved
      | some name =>
        rw [bind_ok (a := some name) (d := c') (by rw [decodeName, hname]; rfl),
          bind_ok (hset (some name))]
        simp only [hname]
        exact agrees_ok (hok (some name)) hle

end CursorWalk
end Ry
