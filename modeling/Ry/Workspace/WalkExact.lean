import Ry.Workspace.CursorWalks

/-! # The walk ends exactly at the end

A walk that succeeds reads the same of a longer stream and leaves the bytes that were added, so
of two streams where one starts with the other, the walk accepts one at most.
-/

namespace Ry

def Walker.append (w : Walker) (extra : List UInt8) : Walker := ⟨w.rest ++ extra, w.refs⟩

namespace TagWalk

variable {α β : Type} {extra : List UInt8}

/-- Where `m` succeeds, `m'` does the same on a longer stream. -/
def Extends (extra : List UInt8) (m m' : TagWalk α) : Prop :=
  ∀ w a w', m w = some (a, w') → m' (w.append extra) = some (a, w'.append extra)

theorem extends_pure (a : α) : Extends extra (pure a : TagWalk α) (pure a) := by
  rintro w b w' ⟨⟩
  rfl

theorem extends_fail {m' : TagWalk α} : Extends extra (fail : TagWalk α) m' := by
  intro w a w' h
  cases h

theorem Extends.bind {m m' : TagWalk α} {f f' : α → TagWalk β} (hm : Extends extra m m')
    (hf : ∀ a, Extends extra (f a) (f' a)) : Extends extra (m >>= f) (m' >>= f') := by
  intro w b w'' h
  rw [bind_apply] at h
  obtain ⟨⟨a, w'⟩, ha, hb⟩ := Option.bind_eq_some_iff.mp h
  rw [bind_of_eq (hm w a w' ha)]
  exact hf a w' b w'' hb

theorem extends_ite {p : Prop} [Decidable p] {m n m' n' : TagWalk α} (hm : Extends extra m m')
    (hn : Extends extra n n') : Extends extra (if p then m else n) (if p then m' else n') := by
  by_cases hp : p
  · rwa [if_pos hp, if_pos hp]
  · rwa [if_neg hp, if_neg hp]

theorem extends_take (len : Nat) : Extends extra (take len) (take len) := by
  rintro w a w' h
  unfold take at h
  split at h
  · rename_i hlen
    cases h
    rw [take, if_pos (by simp only [Walker.append, List.length_append]; omega)]
    simp only [Walker.append, List.take_append_of_le_length hlen,
      List.drop_append_of_le_length hlen]
  · cases h

theorem extends_peekU32 : Extends extra peekU32 peekU32 := by
  rintro w a w' h
  unfold peekU32 at h
  split at h
  · rename_i hlen
    cases h
    rw [peekU32, if_pos (by simp only [Walker.append, List.length_append]; omega)]
    simp only [Walker.append, List.take_append_of_le_length hlen]
  · cases h

theorem extends_u32 : Extends extra u32 u32 := (extends_take 4).bind fun _ => extends_pure _

theorem extends_i32 : Extends extra i32 i32 := extends_u32.bind fun _ => extends_pure _

theorem extends_usize (n : Int) : Extends extra (usize n) (usize n) :=
  extends_ite (extends_pure _) extends_fail

theorem extends_vecLen : Extends extra vecLen vecLen :=
  extends_i32.bind fun first => extends_ite
    (extends_u32.bind fun _ => extends_u32.bind fun _ => extends_pure _) (extends_usize first)

theorem extends_skipBytes (count width : Nat) :
    Extends extra (skipBytes count width) (skipBytes count width) :=
  (extends_take _).bind fun _ => extends_pure ()

theorem extends_checkCount (count : Nat) : Extends extra (checkCount count) (checkCount count) := by
  rintro w a w' h
  unfold checkCount at h
  split at h
  · cases h
  · rename_i hcount
    cases h
    rw [checkCount, if_neg]
    simp only [Walker.append, List.length_append]
    omega

theorem extends_register (name : Option SymbolName) :
    Extends extra (register name) (register name) := by
  rintro w a w' ⟨⟩
  rfl

theorem extends_lookup (index : Nat) : Extends extra (lookup index) (lookup index) := by
  rintro w a w' h
  cases index with
  | zero => cases h
  | succ slot =>
    obtain ⟨name, hname, heq⟩ := Option.map_eq_some_iff.mp h
    cases heq
    exact Option.map_eq_some_iff.mpr ⟨_, hname, rfl⟩

theorem extends_times {step step' : TagWalk α} (h : Extends extra step step') (count : Nat) :
    Extends extra (times count step) (times count step') := by
  induction count with
  | zero => exact extends_pure ()
  | succ count ih => exact h.bind fun _ => ih

theorem extends_optional {step step' : TagWalk α} (present : Bool) (h : Extends extra step step') :
    Extends extra (optional present step) (optional present step') :=
  extends_ite (h.bind fun _ => extends_pure ()) (extends_pure ())

theorem extends_charsxpBytes : Extends extra charsxpBytes charsxpBytes :=
  extends_u32.bind fun _ => extends_ite extends_fail (extends_i32.bind fun _ =>
    extends_ite (extends_pure _) ((extends_usize _).bind fun n =>
      (extends_take n).bind fun _ => extends_pure _))

theorem extends_symbolName : Extends extra symbolName symbolName := by
  refine extends_charsxpBytes.bind fun content => ?_
  cases content with
  | none => exact (extends_register none).bind fun _ => extends_pure _
  | some bytes =>
    dsimp only
    cases fromUtf8 bytes with
    | none => exact extends_fail
    | some name => exact (extends_register _).bind fun _ => extends_pure _

theorem extends_afterRepDef (word : Nat) : Extends extra (afterRepDef word) (afterRepDef word) :=
  extends_ite (extends_u32.bind fun _ => extends_u32) (extends_pure _)

/-- The walker's calls with more fuel, on a longer stream. -/
structure ExtendsAt (extra : List UInt8) (fuel fuel' : Nat) : Prop where
  item : ∀ depth, Extends extra (skipItem fuel depth) (skipItem fuel' depth)
  tail : ∀ depth, Extends extra (skipTail fuel depth) (skipTail fuel' depth)
  rest : ∀ typ attr depth,
    Extends extra (skipPayload fuel typ attr depth) (skipPayload fuel' typ attr depth)
  content : ∀ typ depth, Extends extra (payload fuel typ depth) (payload fuel' typ depth)
  bytecode : ∀ depth, Extends extra (skipBytecode fuel depth) (skipBytecode fuel' depth)
  body : ∀ depth, Extends extra (skipBcBody fuel depth) (skipBcBody fuel' depth)
  constant : ∀ depth, Extends extra (skipConstant fuel depth) (skipConstant fuel' depth)
  lang : ∀ depth, Extends extra (skipBcLang fuel depth) (skipBcLang fuel' depth)
  node : ∀ depth, Extends extra (skipBcTail fuel depth) (skipBcTail fuel' depth)

namespace ExtendsAt

variable {fuel fuel' : Nat}

theorem tail_succ (h : ExtendsAt extra fuel fuel') (depth : Nat) :
    Extends extra (skipTail (fuel + 1) depth) (skipTail (fuel' + 1) depth) := by
  rw [skipTail, skipTail]
  refine extends_u32.bind fun word => ?_
  have hitem := h.item (depth + 1)
  have hpair := (extends_optional (hasAttr word) hitem).bind fun _ =>
    (extends_optional (hasTag word) hitem).bind fun _ => hitem.bind fun _ => h.tail depth
  have hnamed : Extends extra
      (do register none
          let _ ← u32
          let count ← vecLen
          checkCount count
          times count charsxpBytes
          return none : TagWalk (Option SymbolName)) _ :=
    (extends_register none).bind fun _ => extends_u32.bind fun _ => extends_vecLen.bind fun count =>
      (extends_checkCount count).bind fun _ => (extends_times extends_charsxpBytes count).bind
        fun _ => extends_pure _
  split
  · exact extends_ite (extends_u32.bind fun index => extends_lookup index) (extends_lookup _)
  · exact extends_pure none
  · exact extends_pure none
  · exact extends_pure none
  · exact extends_pure none
  · exact extends_pure none
  · exact extends_pure none
  · exact extends_pure none
  · exact extends_symbolName
  · exact (extends_register none).bind fun _ => extends_u32.bind fun _ =>
      (extends_times hitem 4).bind fun _ => extends_pure _
  · exact hnamed
  · exact hnamed
  · exact hnamed
  · exact hpair
  · exact hpair
  · exact hpair
  · exact hpair
  · exact (extends_optional _ hitem).bind fun _ => hitem.bind fun _ => hitem.bind fun _ =>
      h.tail depth
  · exact (h.rest _ _ depth).bind fun _ => extends_pure _

theorem content_succ (h : ExtendsAt extra fuel fuel') (typ depth : Nat) :
    Extends extra (payload (fuel + 1) typ depth) (payload (fuel' + 1) typ depth) := by
  unfold payload
  have hitem := h.item (depth + 1)
  have hvector : ∀ width, Extends extra (do skipBytes (← vecLen) width) _ := fun width =>
    extends_vecLen.bind fun count => extends_skipBytes count width
  have hprimitive : Extends extra (do let len ← usize (← i32); let _ ← take len) _ :=
    extends_i32.bind fun len => (extends_usize len).bind fun len =>
      (extends_take len).bind fun _ => extends_pure ()
  have hlist := extends_vecLen.bind fun count =>
    (extends_checkCount count : Extends extra (checkCount count) (checkCount count)).bind
      fun _ => extends_times hitem count
  split
  · exact extends_pure ()
  · exact extends_pure ()
  · exact hprimitive
  · exact hprimitive
  · exact extends_i32.bind fun len => extends_ite (extends_pure ()) ((extends_usize len).bind
      fun len => (extends_take len).bind fun _ => extends_pure ())
  · exact hvector 4
  · exact hvector 4
  · exact hvector 8
  · exact hvector 16
  · exact extends_vecLen.bind fun count => (extends_checkCount count).bind fun _ =>
      extends_times extends_charsxpBytes count
  · exact hlist
  · exact hlist
  · exact h.bytecode depth
  · exact (extends_register none).bind fun _ => extends_times hitem 2
  · exact extends_register none
  · exact hvector 1
  · exact extends_times hitem 3
  · exact extends_fail

theorem constant_succ (h : ExtendsAt extra fuel fuel') (depth : Nat) :
    Extends extra (skipConstant (fuel + 1) depth) (skipConstant (fuel' + 1) depth) := by
  rw [skipConstant, skipConstant]
  refine extends_peekU32.bind fun word => ?_
  split
  · exact extends_u32.bind fun _ => h.body (depth + 1)
  · exact h.lang (depth + 1)
  · exact h.lang (depth + 1)
  · exact h.lang (depth + 1)
  · exact h.lang (depth + 1)
  · exact h.lang (depth + 1)
  · exact h.lang (depth + 1)
  · exact extends_u32.bind fun _ => (h.item (depth + 1)).bind fun _ => extends_pure ()

theorem node_succ (h : ExtendsAt extra fuel fuel') (depth : Nat) :
    Extends extra (skipBcTail (fuel + 1) depth) (skipBcTail (fuel' + 1) depth) := by
  rw [skipBcTail, skipBcTail]
  have hitem := h.item (depth + 1)
  have hnode := hitem.bind fun _ => (h.lang (depth + 1)).bind fun _ => h.node depth
  refine extends_u32.bind fun word => extends_ite (extends_u32.bind fun _ => extends_pure ())
    ((extends_afterRepDef word).bind fun typ => ?_)
  split
  · exact hitem.bind fun _ => extends_pure ()
  · exact hitem.bind fun _ => hnode
  · exact hitem.bind fun _ => hnode
  · exact hnode
  · exact hnode
  · exact extends_fail

theorem succ (h : ExtendsAt extra fuel fuel') : ExtendsAt extra (fuel + 1) (fuel' + 1) where
  item depth := by
    rw [skipItem, skipItem]
    exact extends_ite extends_fail (h.tail depth)
  tail := h.tail_succ
  rest typ attr depth := by
    rw [skipPayload, skipPayload]
    exact (h.content typ depth).bind fun _ => extends_optional _ (h.item (depth + 1))
  content := h.content_succ
  bytecode depth := by
    rw [skipBytecode, skipBytecode]
    exact extends_u32.bind fun _ => h.body (depth + 1)
  body depth := by
    rw [skipBcBody, skipBcBody]
    exact extends_ite extends_fail (extends_peekU32.bind fun _ => extends_ite extends_fail
      ((h.item (depth + 1)).bind fun _ => extends_i32.bind fun count =>
        (extends_usize count).bind fun count => (extends_checkCount count).bind fun _ =>
          extends_times (h.constant depth) count))
  constant := h.constant_succ
  lang depth := by
    rw [skipBcLang, skipBcLang]
    exact extends_ite extends_fail (h.node depth)
  node := h.node_succ

end ExtendsAt

theorem extendsAt (extra : List UInt8) {fuel fuel' : Nat} (hle : fuel ≤ fuel') :
    ExtendsAt extra fuel fuel' := by
  induction fuel generalizing fuel' with
  | zero =>
    -- without fuel nothing succeeds
    constructor <;> intros
    · rw [skipItem]; exact extends_fail
    · rw [skipTail]; exact extends_fail
    · rw [skipPayload]; exact extends_fail
    · rw [payload]; exact extends_fail
    · rw [skipBytecode]; exact extends_fail
    · rw [skipBcBody]; exact extends_fail
    · rw [skipConstant]; exact extends_fail
    · rw [skipBcLang]; exact extends_fail
    · rw [skipBcTail]; exact extends_fail
  | succ fuel ih =>
    obtain ⟨fuel', rfl⟩ := Nat.exists_eq_add_of_lt hle
    exact (ih (Nat.le_add_right fuel fuel')).succ

theorem extends_cells {fuel fuel' : Nat} (hle : fuel ≤ fuel') (names : Finset SymbolName) :
    Extends extra (cells fuel names) (cells fuel' names) := by
  induction fuel generalizing fuel' names with
  | zero => exact extends_fail
  | succ fuel ih =>
    obtain ⟨fuel', rfl⟩ := Nat.exists_eq_add_of_lt hle
    have hfuel := Nat.le_add_right fuel fuel'
    have hitem := (extendsAt extra hfuel).item 1
    have hvalue := fun tag => hitem.bind fun _ => ih hfuel (insertTag tag names)
    rw [cells, cells]
    refine extends_u32.bind fun word => ?_
    split
    · exact extends_pure names
    · exact (extends_optional _ hitem).bind fun _ => extends_ite (hitem.bind hvalue)
        ((extends_pure none).bind hvalue)
    · exact extends_fail

theorem extends_header : Extends extra header header :=
  extends_i32.bind fun _ => extends_i32.bind fun _ => extends_i32.bind fun _ =>
    extends_ite (extends_i32.bind fun len => (extends_usize len).bind fun len =>
      (extends_take len).bind fun _ => extends_pure ()) (extends_ite (extends_pure ()) extends_fail)

theorem extends_enumerate {fuel fuel' : Nat} (hle : fuel ≤ fuel') :
    Extends extra (enumerate fuel) (enumerate fuel') :=
  (extends_take 2).bind fun _ => extends_ite extends_fail
    (extends_header.bind fun _ => extends_cells hle ∅)

/-! ## The terminator -/

/-- Cells of the top-level pairlist, one after the other. -/
inductive Spine : Walker → Walker → Prop
  | nil (w : Walker) : Spine w w
  | cons {w w₁ w₂ w₃ w₄ w' : Walker} {word fuel : Nat} {value : Option SymbolName}
      (hword : u32 w = some (word, w₁)) (htyp : word % 256 = 2)
      (hattributes : optional (hasAttr word) (skipItem fuel 1) w₁ = some ((), w₂))
      (htag : optional (hasTag word) (skipItem fuel 1) w₂ = some ((), w₃))
      (hvalue : skipItem fuel 1 w₃ = some (value, w₄)) (hrest : Spine w₄ w') : Spine w w'

/-- The cells end with the word of `NULL`. -/
theorem cells_spine {fuel : Nat} {names out : Finset SymbolName} {w w' : Walker}
    (h : cells fuel names w = some (out, w')) :
    ∃ w₁ word, Spine w w₁ ∧ u32 w₁ = some (word, w') ∧ word % 256 = 254 := by
  induction fuel generalizing names w with
  | zero =>
    rw [cells] at h
    cases h
  | succ fuel ih =>
    rw [cells, bind_apply] at h
    obtain ⟨⟨word, w₁⟩, hword, h⟩ := Option.bind_eq_some_iff.mp h
    generalize htyp : word % 256 = typ at h
    dsimp only at h
    split at h
    · cases h
      exact ⟨w, word, .nil w, hword, htyp⟩
    · rw [bind_apply] at h
      obtain ⟨⟨⟨⟩, w₂⟩, hattributes, h⟩ := Option.bind_eq_some_iff.mp h
      have htagged : ∃ tag w₃, optional (hasTag word) (skipItem fuel 1) w₂ = some ((), w₃) ∧
          (do let _ ← skipItem fuel 1; cells fuel (insertTag tag names)) w₃ = some (out, w') := by
        dsimp only at h
        split at h
        · rename_i hpresent
          rw [bind_apply] at h
          obtain ⟨⟨tag, w₃⟩, hread, h⟩ := Option.bind_eq_some_iff.mp h
          exact ⟨tag, w₃, by rw [hpresent, optional_true _ _ hread], h⟩
        · rename_i habsent
          rw [Bool.not_eq_true] at habsent
          exact ⟨none, w₂, by rw [habsent]; rfl, h⟩
      obtain ⟨tag, w₃, htag, h⟩ := htagged
      rw [bind_apply] at h
      obtain ⟨⟨value, w₄⟩, hvalue, h⟩ := Option.bind_eq_some_iff.mp h
      obtain ⟨w₅, last, hrest, hlast, hnull⟩ := ih h
      exact ⟨w₅, last, .cons hword htyp hattributes htag hvalue hrest, hlast, hnull⟩
    · cases h

/-- The format line, the versions, the cells and their terminator, and nothing after it. -/
def Whole (payload : List UInt8) : Prop :=
  ∃ w w₁ refs word, payload.take 2 = xdrFormat ∧ header ⟨payload.drop 2, []⟩ = some ((), w) ∧
    Spine w w₁ ∧ u32 w₁ = some (word, ⟨[], refs⟩) ∧ word % 256 = 254

theorem whole_of_enumerate {fuel : Nat} {payload : List UInt8} {names : Finset SymbolName}
    {refs : List (Option SymbolName)}
    (h : enumerate fuel ⟨payload, []⟩ = some (names, ⟨[], refs⟩)) : Whole payload := by
  rw [enumerate, bind_apply] at h
  obtain ⟨⟨format, w⟩, htake, h⟩ := Option.bind_eq_some_iff.mp h
  unfold take at htake
  split at htake
  · cases htake
    dsimp only at h
    split at h
    · cases h
    · rename_i hformat
      rw [bind_apply] at h
      obtain ⟨⟨⟨⟩, w⟩, hheader, h⟩ := Option.bind_eq_some_iff.mp h
      obtain ⟨w₁, word, hspine, hword, hnull⟩ := cells_spine h
      exact ⟨w, w₁, refs, word, not_not.mp hformat, hheader, hspine, hword, hnull⟩
  · cases htake

end TagWalk

/-- A stream that starts with an accepted one is not accepted. -/
theorem enumerateWorkspaceTags_append {payload extra : List UInt8} {names : Finset SymbolName}
    (h : enumerateWorkspaceTags payload = some names) (hextra : extra ≠ []) :
    enumerateWorkspaceTags (payload ++ extra) = none := by
  unfold enumerateWorkspaceTags at h
  split at h
  · rename_i out refs hwalk
    have hlonger : TagWalk.Extends extra (TagWalk.enumerate payload.length)
        (TagWalk.enumerate (payload ++ extra).length) := TagWalk.extends_enumerate (by simp)
    have hsame : TagWalk.enumerate (payload ++ extra).length ⟨payload ++ extra, []⟩ =
        some (out, ⟨extra, refs⟩) := hlonger ⟨payload, []⟩ out ⟨[], refs⟩ hwalk
    rw [enumerateWorkspaceTags, hsame]
    cases extra with
    | nil => exact absurd rfl hextra
    | cons b bytes => rfl
  · cases h

/-- Neither a proper prefix nor a proper extension of an accepted stream is accepted. -/
theorem enumerateWorkspaceTags_exact_end {payload other : List UInt8} {names : Finset SymbolName}
    (h : enumerateWorkspaceTags payload = some names) (hne : other ≠ payload)
    (hedge : other <+: payload ∨ payload <+: other) : enumerateWorkspaceTags other = none := by
  rcases hedge with ⟨extra, rfl⟩ | ⟨extra, rfl⟩
  · have hextra : extra ≠ [] := by
      rintro rfl
      exact hne (List.append_nil other).symm
    cases hother : enumerateWorkspaceTags other with
    | none => rfl
    | some names' =>
      rw [enumerateWorkspaceTags_append hother hextra] at h
      cases h
  · refine enumerateWorkspaceTags_append h ?_
    rintro rfl
    exact hne (List.append_nil payload)

namespace ByteSlice

theorem agrees_enumerateTags (payload : ByteSlice) :
    CursorWalk.Agrees payload 0 ⟨0, [], []⟩ payload.enumerateTags
      ((TagWalk.enumerate payload.bytes.length >>= TagWalk.toEnd) ⟨payload.bytes, []⟩) := by
  have hstart : Cursor.Ok payload ⟨0, [], []⟩ := ⟨Nat.zero_le _, List.pairwise_singleton _ _⟩
  have hfollows : CursorWalk.Follows payload payload.bytes.length 0
      (CursorWalk.enumerate payload.bytes.length)
      (TagWalk.enumerate payload.bytes.length >>= TagWalk.toEnd) :=
    CursorWalk.follows_enumerate (by omega)
  exact hfollows _ hstart (Nat.sub_le _ _)

/-- The cursor's walk answers what the walk over the stream answers. -/
theorem enumerateTags_eq (payload : ByteSlice) :
    payload.enumerateTags.1.toOption = enumerateWorkspaceTags payload.bytes := by
  have h := payload.agrees_enumerateTags
  rw [enumerateWorkspaceTags_eq]
  rcases hwalk : payload.enumerateTags with ⟨e | names, c⟩
  · rw [hwalk] at h
    rw [(h.failure e rfl).2]
    rfl
  · rw [hwalk] at h
    rw [(h.success names rfl).2]
    rfl

/-- The walk of any bytes ends without running out of range, the cursor only moves forward and
within the slice, and a walk that succeeds ends at the terminator of the top-level pairlist and
with the last byte, so it does on no prefix and no extension of the bytes. -/
theorem enumerateTags_spec (payload : ByteSlice) :
    (∀ e, payload.enumerateTags.1 = .error e → e = .malformed) ∧
    (payload.enumerateTags.2.pos :: payload.enumerateTags.2.trail).Pairwise (· ≥ ·) ∧
    (∀ pos ∈ payload.enumerateTags.2.pos :: payload.enumerateTags.2.trail,
      pos ≤ payload.bytes.length) ∧
    ∀ names, payload.enumerateTags.1 = .ok names →
      payload.enumerateTags.2.pos = payload.bytes.length ∧ TagWalk.Whole payload.bytes ∧
      ∀ other : ByteSlice, other.bytes ≠ payload.bytes →
        other.bytes <+: payload.bytes ∨ payload.bytes <+: other.bytes →
        other.enumerateTags.1 = .error .malformed := by
  have h := payload.agrees_enumerateTags
  refine ⟨fun e he => (h.failure e he).1, h.ok.forward, ?_, fun names hnames => ?_⟩
  · have hforward := List.pairwise_cons.mp h.ok.forward
    exact List.forall_mem_cons.mpr
      ⟨h.ok.le_length, fun pos hpos => (hforward.1 pos hpos).trans h.ok.le_length⟩
  · have hout := (h.success names hnames).2
    rw [TagWalk.bind_apply] at hout
    obtain ⟨⟨found, w⟩, hwalk, hend⟩ := Option.bind_eq_some_iff.mp hout
    unfold TagWalk.toEnd at hend
    split at hend
    · rename_i hrest
      obtain ⟨-, rfl⟩ := Prod.mk.inj (Option.some.inj hend)
      have hrest : payload.bytes.drop payload.enumerateTags.2.pos = [] := hrest
      rw [Cursor.walker, hrest] at hwalk
      refine ⟨?_, TagWalk.whole_of_enumerate hwalk, ?_⟩
      · exact Nat.le_antisymm h.ok.le_length (List.drop_eq_nil_iff.mp hrest)
      · intro other hne hedge
        have hpayload : enumerateWorkspaceTags payload.bytes = some names := by
          rw [← payload.enumerateTags_eq, hnames]
          rfl
        have hother := enumerateWorkspaceTags_exact_end hpayload hne hedge
        rw [← other.enumerateTags_eq] at hother
        cases hresult : other.enumerateTags.1 with
        | ok names' => simp [hresult, Except.toOption] at hother
        | error e => rw [(other.agrees_enumerateTags.failure e hresult).1]
    · cases hend

end ByteSlice

end Ry
