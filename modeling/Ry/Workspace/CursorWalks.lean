import Ry.Workspace.CursorSafe

/-! # The cursor's walk and the stream's

Each call of the walker does the same on both levels while its fuel is more than the bytes that
are left: a call that reads no word first is followed by one that does.
-/

namespace Ry

namespace CursorWalk

open TagWalk (maxWalkDepth hasAttr hasTag)

/-- What holds of the walker's calls with this fuel. -/
structure FollowsAt (s : ByteSlice) (fuel : Nat) : Prop where
  item : ∀ depth room, room + 2 ≤ fuel →
    Follows s room 4 (skipItem fuel depth) (TagWalk.skipItem fuel depth)
  tail : ∀ depth room, depth ≤ maxWalkDepth → room + 1 ≤ fuel →
    Follows s room 4 (skipTail fuel depth) (TagWalk.skipTail fuel depth)
  rest : ∀ typ attr depth room, depth ≤ maxWalkDepth → room + 4 ≤ fuel →
    Follows s room 0 (skipPayload fuel typ attr depth) (TagWalk.skipPayload fuel typ attr depth)
  content : ∀ typ depth room, depth ≤ maxWalkDepth → room + 3 ≤ fuel →
    Follows s room 0 (payload fuel typ depth) (TagWalk.payload fuel typ depth)
  bytecode : ∀ depth room, depth ≤ maxWalkDepth → room + 2 ≤ fuel →
    Follows s room 0 (skipBytecode fuel depth) (TagWalk.skipBytecode fuel depth)
  body : ∀ depth room, room + 3 ≤ fuel →
    Follows s room 0 (skipBcBody fuel depth) (TagWalk.skipBcBody fuel depth)
  constant : ∀ depth room, depth ≤ maxWalkDepth → room + 3 ≤ fuel →
    Follows s room 0 (skipConstant fuel depth) (TagWalk.skipConstant fuel depth)
  lang : ∀ depth room, room + 2 ≤ fuel →
    Follows s room 4 (skipBcLang fuel depth) (TagWalk.skipBcLang fuel depth)
  node : ∀ depth room, depth ≤ maxWalkDepth → room + 1 ≤ fuel →
    Follows s room 4 (skipBcTail fuel depth) (TagWalk.skipBcTail fuel depth)

variable {α : Type} {s : ByteSlice} {fuel depth room : Nat}

theorem Follows.free {k : Nat} {m : CursorWalk α} {m' : TagWalk α} (h : Follows s room k m m') :
    Follows s room 0 m m' :=
  h.mono (Nat.le_refl _) (Nat.zero_le _)

namespace FollowsAt

/-- An item one level down. -/
theorem nested (h : FollowsAt s fuel) (hdepth : depth ≤ maxWalkDepth) (hroom : room + 2 ≤ fuel) :
    Follows s room 4 (deeper depth (skipItem fuel)) (TagWalk.skipItem fuel (depth + 1)) :=
  follows_deeper hdepth (h.item (depth + 1) room hroom)

theorem nestedTimes (h : FollowsAt s fuel) (hdepth : depth ≤ maxWalkDepth) (hroom : room + 2 ≤ fuel)
    (count : Nat) : Follows s room 0 (times count (deeper depth (skipItem fuel)))
      (TagWalk.times count (TagWalk.skipItem fuel (depth + 1))) :=
  follows_times (fun _ hroom' => (h.nested hdepth (by omega)).free) count

theorem nestedOptional (h : FollowsAt s fuel) (hdepth : depth ≤ maxWalkDepth)
    (hroom : room + 2 ≤ fuel) (present : Bool) :
    Follows s room 0 (optional present (deeper depth (skipItem fuel)))
      (TagWalk.optional present (TagWalk.skipItem fuel (depth + 1))) :=
  follows_optional present (h.nested hdepth hroom).free

theorem item_succ (h : FollowsAt s fuel) (hroom : room + 2 ≤ fuel + 1) :
    Follows s room 4 (skipItem (fuel + 1) depth) (TagWalk.skipItem (fuel + 1) depth) := by
  rw [skipItem, TagWalk.skipItem]
  exact follows_ite (fun _ => follows_fail) fun hdepth =>
    h.tail depth room (Nat.not_lt.mp hdepth) (by omega)

theorem tail_succ (h : FollowsAt s fuel) (hdepth : depth ≤ maxWalkDepth)
    (hroom : room + 1 ≤ fuel + 1) :
    Follows s room 4 (skipTail (fuel + 1) depth) (TagWalk.skipTail (fuel + 1) depth) := by
  rw [skipTail, TagWalk.skipTail]
  refine follows_u32.bind fun hword word => ?_
  have hpair : Follows s (room - 4) 0
      (do optional (hasAttr word) (deeper depth (skipItem fuel))
          optional (hasTag word) (deeper depth (skipItem fuel))
          let _ ← deeper depth (skipItem fuel)
          skipTail fuel depth)
      (do TagWalk.optional (hasAttr word) (TagWalk.skipItem fuel (depth + 1))
          TagWalk.optional (hasTag word) (TagWalk.skipItem fuel (depth + 1))
          let _ ← TagWalk.skipItem fuel (depth + 1)
          TagWalk.skipTail fuel depth) :=
    (h.nestedOptional hdepth (by omega) _).andThen fun _ =>
      (h.nestedOptional hdepth (by omega) _).andThen fun _ =>
        (h.nested hdepth (by omega)).free.andThen fun _ => (h.tail _ _ hdepth (by omega)).free
  have hnamed : Follows s (room - 4) 0
      (do register none
          let _ ← u32
          let count ← vecLen
          checkCount count
          times count charsxpBytes
          return none : CursorWalk (Option SymbolName))
      (do TagWalk.register none
          let _ ← TagWalk.u32
          let count ← TagWalk.vecLen
          TagWalk.checkCount count
          TagWalk.times count TagWalk.charsxpBytes
          return none) :=
    (follows_register none).andThen fun _ => follows_u32.free.andThen fun _ =>
      follows_vecLen.free.andThen fun count => (follows_checkCount count).andThen fun _ =>
        (follows_times (fun _ _ => follows_charsxpBytes.free) count).andThen fun _ => follows_pure _
  generalize word % 256 = typ
  by_cases href : typ = 255
  · subst href
    exact follows_ite (fun _ => follows_u32.free.andThen fun index => follows_lookup index)
      fun _ => follows_lookup _
  by_cases hsingle : typ ∈ Xdr.singletons
  · simp only [Xdr.singletons, List.mem_cons, List.not_mem_nil, or_false] at hsingle
    rcases hsingle with rfl | rfl | rfl | rfl | rfl | rfl | rfl <;> exact follows_pure _
  by_cases hsymbol : typ = 1
  · subst hsymbol
    exact follows_symbolName.free
  by_cases henvironment : typ = 4
  · subst henvironment
    exact (follows_register none).andThen fun _ => follows_u32.free.andThen fun _ =>
      (h.nestedTimes hdepth (by omega) 4).andThen fun _ => follows_pure _
  by_cases hname : typ ∈ Xdr.namedTypes
  · simp only [Xdr.namedTypes, List.mem_cons, List.not_mem_nil, or_false] at hname
    rcases hname with rfl | rfl | rfl <;> exact hnamed
  by_cases hlist : typ ∈ Xdr.pairTypes
  · simp only [Xdr.pairTypes, List.mem_cons, List.not_mem_nil, or_false] at hlist
    rcases hlist with rfl | rfl | rfl | rfl <;> exact hpair
  by_cases hclosure : typ = 3
  · subst hclosure
    exact (h.nestedOptional hdepth (by omega) _).andThen fun _ =>
      (h.nested hdepth (by omega)).free.andThen fun _ =>
        (h.nested hdepth (by omega)).free.andThen fun _ => (h.tail _ _ hdepth (by omega)).free
  have hother : Follows s (room - 4) 0
      (do skipPayload fuel typ (hasAttr word) depth
          return none : CursorWalk (Option SymbolName))
      (do TagWalk.skipPayload fuel typ (hasAttr word) depth
          return none) :=
    (h.rest typ _ _ _ hdepth (by omega)).andThen fun _ => follows_pure _
  have hknown : ∀ n ∈ 255 :: 1 :: 4 :: 3 :: (Xdr.singletons ++ Xdr.namedTypes ++ Xdr.pairTypes),
      typ ≠ n := by
    rintro n hn rfl
    simp only [List.mem_cons, List.mem_append] at hn
    rcases hn with hn | hn | hn | hn | (hn | hn) | hn
    · exact href hn
    · exact hsymbol hn
    · exact henvironment hn
    · exact hclosure hn
    · exact hsingle hn
    · exact hname hn
    · exact hlist hn
  split <;> first
    | exact absurd rfl (hknown _ (by decide))
    | exact hother
    | (split <;> first | exact absurd rfl (hknown _ (by decide)) | exact hother)

theorem rest_succ (h : FollowsAt s fuel) (typ : Nat) (attr : Bool) (hdepth : depth ≤ maxWalkDepth)
    (hroom : room + 4 ≤ fuel + 1) : Follows s room 0 (skipPayload (fuel + 1) typ attr depth)
      (TagWalk.skipPayload (fuel + 1) typ attr depth) := by
  rw [skipPayload, TagWalk.skipPayload]
  exact (h.content typ depth room hdepth (by omega)).andThen fun _ =>
    h.nestedOptional hdepth (by omega) _

theorem content_succ (h : FollowsAt s fuel) (typ : Nat) (hdepth : depth ≤ maxWalkDepth)
    (hroom : room + 3 ≤ fuel + 1) : Follows s room 0 (payload (fuel + 1) typ depth)
      (TagWalk.payload (fuel + 1) typ depth) := by
  unfold payload TagWalk.payload
  have hvector : ∀ width, Follows s room 0 (do skipBytes (← vecLen) width)
      (do TagWalk.skipBytes (← TagWalk.vecLen) width) := fun width =>
    follows_vecLen.free.andThen fun count => follows_skipBytes count width
  have hprimitive : Follows s room 0 (do let len ← usize (← i32); let _ ← take len)
      (do let len ← TagWalk.usize (← TagWalk.i32); let _ ← TagWalk.take len) :=
    follows_i32.free.andThen fun len => (follows_usize len).andThen fun len =>
      (follows_take len).free.andThen fun _ => follows_pure ()
  have hlist : Follows s room 0
      (do let count ← vecLen
          checkCount count
          times count (deeper depth (skipItem fuel)))
      (do let count ← TagWalk.vecLen
          TagWalk.checkCount count
          TagWalk.times count (TagWalk.skipItem fuel (depth + 1))) :=
    (follows_vecLen.bind fun _ count => (follows_checkCount count).andThen fun _ =>
      h.nestedTimes hdepth (by omega) count).free
  split
  · exact follows_pure ()
  · exact follows_pure ()
  · exact hprimitive
  · exact hprimitive
  · exact follows_i32.free.andThen fun len => follows_ite (fun _ => follows_pure ()) fun _ =>
      (follows_usize len).andThen fun len => (follows_take len).free.andThen fun _ => follows_pure ()
  · exact hvector 4
  · exact hvector 4
  · exact hvector 8
  · exact hvector 16
  · exact follows_vecLen.free.andThen fun count => (follows_checkCount count).andThen fun _ =>
      follows_times (fun _ _ => follows_charsxpBytes.free) count
  · exact hlist
  · exact hlist
  · exact h.bytecode depth room hdepth (by omega)
  · exact (follows_register none).andThen fun _ => h.nestedTimes hdepth (by omega) 2
  · exact follows_register none
  · exact hvector 1
  · exact h.nestedTimes hdepth (by omega) 3
  · first
      | exact follows_fail
      | (split <;> first | exact follows_fail | exact absurd rfl (by assumption))

theorem bytecode_succ (h : FollowsAt s fuel) (hdepth : depth ≤ maxWalkDepth)
    (hroom : room + 2 ≤ fuel + 1) : Follows s room 0 (skipBytecode (fuel + 1) depth)
      (TagWalk.skipBytecode (fuel + 1) depth) := by
  rw [skipBytecode, TagWalk.skipBytecode]
  refine (follows_u32.bind fun hword _ => ?_).free
  exact follows_deeper hdepth (h.body (depth + 1) _ (by omega))

theorem body_succ (h : FollowsAt s fuel) (hroom : room + 3 ≤ fuel + 1) :
    Follows s room 0 (skipBcBody (fuel + 1) depth) (TagWalk.skipBcBody (fuel + 1) depth) := by
  rw [skipBcBody, TagWalk.skipBcBody]
  refine follows_ite (fun _ => follows_fail) fun hdepth => ?_
  rw [Nat.not_lt] at hdepth
  refine follows_peekU32.andThen fun word => follows_ite (fun _ => follows_fail) fun _ => ?_
  refine ((h.nested hdepth (by omega)).bind fun hitem _ => ?_).free
  refine follows_i32.free.andThen fun count => (follows_usize count).andThen fun count => ?_
  refine (follows_checkCount count).andThen fun _ => follows_times (fun room' hroom' => ?_) count
  exact h.constant depth room' hdepth (by omega)

theorem constant_succ (h : FollowsAt s fuel) (hdepth : depth ≤ maxWalkDepth)
    (hroom : room + 3 ≤ fuel + 1) : Follows s room 0 (skipConstant (fuel + 1) depth)
      (TagWalk.skipConstant (fuel + 1) depth) := by
  rw [skipConstant, TagWalk.skipConstant]
  refine follows_peekU32.andThen fun word => ?_
  have hcode : Follows s room 0 (do let _ ← u32; deeper depth (skipBcBody fuel))
      (do let _ ← TagWalk.u32; TagWalk.skipBcBody fuel (depth + 1)) :=
    (follows_u32.bind fun _ _ => follows_deeper hdepth (h.body _ _ (by omega))).free
  have hlang : Follows s room 0 (deeper depth (skipBcLang fuel))
      (TagWalk.skipBcLang fuel (depth + 1)) :=
    follows_deeper hdepth (h.lang _ _ (by omega)).free
  have hvalue : Follows s room 0 (do let _ ← u32; let _ ← deeper depth (skipItem fuel))
      (do let _ ← TagWalk.u32; let _ ← TagWalk.skipItem fuel (depth + 1)) :=
    (follows_u32.bind fun _ _ => (h.nested hdepth (by omega)).free.andThen fun _ =>
      follows_pure ()).free
  split
  · exact hcode
  · exact hlang
  · exact hlang
  · exact hlang
  · exact hlang
  · exact hlang
  · exact hlang
  · first
      | exact hvalue
      | (split <;> first | exact hvalue | exact absurd rfl (by assumption))

theorem lang_succ (h : FollowsAt s fuel) (hroom : room + 2 ≤ fuel + 1) :
    Follows s room 4 (skipBcLang (fuel + 1) depth) (TagWalk.skipBcLang (fuel + 1) depth) := by
  rw [skipBcLang, TagWalk.skipBcLang]
  exact follows_ite (fun _ => follows_fail) fun hdepth =>
    h.node depth room (Nat.not_lt.mp hdepth) (by omega)

theorem node_succ (h : FollowsAt s fuel) (hdepth : depth ≤ maxWalkDepth)
    (hroom : room + 1 ≤ fuel + 1) :
    Follows s room 4 (skipBcTail (fuel + 1) depth) (TagWalk.skipBcTail (fuel + 1) depth) := by
  rw [skipBcTail, TagWalk.skipBcTail]
  refine follows_u32.bind fun hword word => ?_
  refine follows_ite (fun _ => follows_u32.free.andThen fun _ => follows_pure ()) fun _ => ?_
  have hmark : Follows s (room - 4) 0 (afterRepDef word) (TagWalk.afterRepDef word) :=
    follows_ite (fun _ => follows_u32.free.andThen fun _ => follows_u32.free) fun _ => follows_pure _
  refine hmark.andThen fun typ => ?_
  have hnested : Follows s (room - 4 - 0) 4 (deeper depth (skipItem fuel))
      (TagWalk.skipItem fuel (depth + 1)) := h.nested hdepth (by omega)
  have hcar : Follows s (room - 4 - 0) 0 (deeper depth (skipBcLang fuel))
      (TagWalk.skipBcLang fuel (depth + 1)) :=
    follows_deeper hdepth (h.lang _ _ (by omega)).free
  have hcdr : Follows s (room - 4 - 0) 0 (skipBcTail fuel depth) (TagWalk.skipBcTail fuel depth) :=
    (h.node _ _ hdepth (by omega)).free
  have hnode : Follows s (room - 4 - 0) 0
      (do let _ ← deeper depth (skipItem fuel)
          deeper depth (skipBcLang fuel)
          skipBcTail fuel depth)
      (do let _ ← TagWalk.skipItem fuel (depth + 1)
          TagWalk.skipBcLang fuel (depth + 1)
          TagWalk.skipBcTail fuel depth) :=
    hnested.free.andThen fun _ => hcar.andThen fun _ => hcdr
  split
  · exact hnested.free.andThen fun _ => follows_pure ()
  · exact hnested.free.andThen fun _ => hnode
  · exact hnested.free.andThen fun _ => hnode
  · exact hnode
  · exact hnode
  · first
      | exact follows_fail
      | (split <;> first | exact follows_fail | exact absurd rfl (by assumption))

end FollowsAt

theorem followsAt (s : ByteSlice) (fuel : Nat) : FollowsAt s fuel := by
  induction fuel with
  | zero => constructor <;> intros <;> omega
  | succ fuel ih =>
    exact
      { item := fun _ _ hroom => ih.item_succ hroom
        tail := fun _ _ hdepth hroom => ih.tail_succ hdepth hroom
        rest := fun typ attr _ _ hdepth hroom => ih.rest_succ typ attr hdepth hroom
        content := fun typ _ _ hdepth hroom => ih.content_succ typ hdepth hroom
        bytecode := fun _ _ hdepth hroom => ih.bytecode_succ hdepth hroom
        body := fun _ _ hroom => ih.body_succ hroom
        constant := fun _ _ hdepth hroom => ih.constant_succ hdepth hroom
        lang := fun _ _ hroom => ih.lang_succ hroom
        node := fun _ _ hdepth hroom => ih.node_succ hdepth hroom }

/-! ## The top level -/

theorem follows_cells (names : Finset SymbolName) (hroom : room + 1 ≤ fuel) :
    Follows s room 0 (cells fuel names) (TagWalk.cells fuel names) := by
  induction fuel generalizing room names with
  | zero => omega
  | succ fuel ih =>
    rw [cells, TagWalk.cells]
    refine (follows_u32.bind fun hword word => ?_).free
    have hitem : Follows s (room - 4) 0 (skipItem fuel 1) (TagWalk.skipItem fuel 1) :=
      ((followsAt s fuel).item 1 _ (by omega)).free
    have hvalue : ∀ tag, Follows s (room - 4) 0
        (do let _ ← skipItem fuel 1; cells fuel (TagWalk.insertTag tag names))
        (do let _ ← TagWalk.skipItem fuel 1; TagWalk.cells fuel (TagWalk.insertTag tag names)) :=
      fun tag => hitem.andThen fun _ => ih _ (by omega)
    have hcell : Follows s (room - 4) 0
        (do optional (hasAttr word) (skipItem fuel 1)
            let tag ← if hasTag word then skipItem fuel 1 else pure none
            let _ ← skipItem fuel 1
            cells fuel (TagWalk.insertTag tag names))
        (do TagWalk.optional (hasAttr word) (TagWalk.skipItem fuel 1)
            let tag ← if hasTag word then TagWalk.skipItem fuel 1 else pure none
            let _ ← TagWalk.skipItem fuel 1
            TagWalk.cells fuel (TagWalk.insertTag tag names)) :=
      (follows_optional _ hitem).andThen fun _ => follows_ite (fun _ => hitem.andThen hvalue)
        fun _ => (follows_pure none).andThen hvalue
    generalize word % 256 = typ
    split
    · exact follows_pure names
    · exact hcell
    · first
        | exact follows_fail
        | (split <;> first | exact follows_fail | exact absurd rfl (by assumption))

theorem follows_header : Follows s room 0 header TagWalk.header := by
  refine follows_i32.free.andThen fun version => follows_i32.free.andThen fun _ =>
    follows_i32.free.andThen fun _ => follows_ite (fun _ => ?_) fun _ =>
      follows_ite (fun _ => follows_pure ()) fun _ => follows_fail
  exact follows_i32.free.andThen fun len => (follows_usize len).andThen fun len =>
    (follows_take len).free.andThen fun _ => follows_pure ()

end CursorWalk

/-- The names, if no byte is left over. -/
def TagWalk.toEnd (names : Finset SymbolName) : TagWalk (Finset SymbolName) := fun w =>
  if w.rest = [] then some (names, w) else none

theorem enumerateWorkspaceTags_eq (payload : List UInt8) : enumerateWorkspaceTags payload =
    ((TagWalk.enumerate payload.length >>= TagWalk.toEnd) ⟨payload, []⟩).map Prod.fst := by
  rw [enumerateWorkspaceTags, TagWalk.bind_apply]
  rcases TagWalk.enumerate payload.length ⟨payload, []⟩ with _ | ⟨names, ⟨_ | ⟨b, bytes⟩, refs⟩⟩
  · rfl
  · rfl
  · rfl

namespace CursorWalk

variable {s : ByteSlice} {fuel room : Nat}

/-- The check at the end of `enumerate`. -/
theorem follows_toEnd (names : Finset SymbolName) : Follows s room 0
    (do if (← position) ≠ (← length) then fail else return names) (TagWalk.toEnd names) := by
  intro c hc _
  have hle := hc.le_length
  have hend : (do if (← position) ≠ (← length) then fail else return names : CursorWalk _) s c =
      (if c.pos ≠ s.bytes.length then fail else pure names : CursorWalk (Finset SymbolName)) s c :=
    rfl
  rw [hend, TagWalk.toEnd]
  have hrest : (c.walker s).rest = [] ↔ ¬ c.pos ≠ s.bytes.length := by
    rw [← List.length_eq_zero_iff, length_walker]
    omega
  by_cases hpos : c.pos ≠ s.bytes.length
  · rw [if_pos hpos, if_neg (by rw [hrest]; exact not_not.mpr hpos)]
    exact agrees_malformed hc (Nat.le_refl _)
  · rw [if_neg hpos, if_pos (hrest.mpr hpos)]
    exact agrees_ok hc (Nat.le_refl _)

theorem follows_enumerate (hroom : room + 1 ≤ fuel + 2) : Follows s room 0 (enumerate fuel)
    (TagWalk.enumerate fuel >>= TagWalk.toEnd) := by
  have hassoc : TagWalk.enumerate fuel >>= TagWalk.toEnd = (do
      if (← TagWalk.take 2) ≠ TagWalk.xdrFormat then TagWalk.fail
      else
        TagWalk.header
        let names ← TagWalk.cells fuel ∅
        TagWalk.toEnd names) := by
    funext w
    rw [TagWalk.enumerate]
    simp only [TagWalk.bind_apply]
    cases hformat : TagWalk.take 2 w with
    | none => rfl
    | some r =>
      by_cases hxdr : r.1 ≠ TagWalk.xdrFormat
      · simp only [Option.bind_some, if_pos hxdr]
        rfl
      · simp only [Option.bind_some, if_neg hxdr, TagWalk.bind_apply]
        cases TagWalk.header r.2 <;> rfl
  rw [hassoc, enumerate]
  refine ((follows_take 2).bind fun hformat _ => follows_ite (fun _ => follows_fail) fun _ => ?_).free
  exact follows_header.andThen fun _ => (follows_cells ∅ (by omega)).andThen follows_toEnd

end CursorWalk
end Ry
