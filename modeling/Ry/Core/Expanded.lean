import Ry.Core.Budgeted
import Ry.Lib.Listed
import Ry.Declared.Spelling

/-! # Which types the expanded text tells apart

An expanded text that is not cut off is `render` of its type.  Two types with one text agree in
every fact but the marks of their class vectors: whether a class test gave the names, and whether
they stand in for storage.  The text has neither.
-/

namespace Ry.Presentation

open Listed

/-! ## Debug strings -/

section Debug

variable {isPlain : Char → Bool}

/-- The characters with an escape of one letter. -/
def letterEscapes : List (Char × Char) :=
  [('\x00', '0'), ('\t', 't'), ('\r', 'r'), ('\n', 'n'), ('\\', '\\'), ('"', '"')]

theorem escapeDebug_cases (c : Char) :
    (∃ letter, (c, letter) ∈ letterEscapes ∧ escapeDebug isPlain c = ['\\', letter]) ∨
      (c ≠ '\\' ∧ c ≠ '"' ∧ escapeDebug isPlain c = [c]) ∨
      escapeDebug isPlain c = '\\' :: 'u' :: '\x7b' :: (Nat.toDigits 16 c.toNat ++ ['\x7d']) := by
  unfold escapeDebug
  by_cases h0 : c = '\x00'
  · exact .inl ⟨'0', by simp [letterEscapes, h0], if_pos h0⟩
  by_cases ht : c = '\t'
  · exact .inl ⟨'t', by simp [letterEscapes, ht], by rw [if_neg h0, if_pos ht]⟩
  by_cases hr : c = '\r'
  · exact .inl ⟨'r', by simp [letterEscapes, hr], by rw [if_neg h0, if_neg ht, if_pos hr]⟩
  by_cases hn : c = '\n'
  · exact .inl ⟨'n', by simp [letterEscapes, hn],
      by rw [if_neg h0, if_neg ht, if_neg hr, if_pos hn]⟩
  rw [if_neg h0, if_neg ht, if_neg hr, if_neg hn]
  by_cases hslash : c = '\\'
  · exact .inl ⟨'\\', by simp [letterEscapes, hslash], if_pos hslash⟩
  by_cases hquote : c = '"'
  · exact .inl ⟨'"', by simp [letterEscapes, hquote], by rw [if_neg hslash, if_pos hquote]⟩
  rw [if_neg hslash, if_neg hquote]
  split
  · exact .inr (.inl ⟨hslash, hquote, rfl⟩)
  · exact .inr (.inr (by simp))

theorem escapeDebug_ne_nil (c : Char) : escapeDebug isPlain c ≠ [] := by
  rcases @escapeDebug_cases isPlain c with ⟨_, _, h⟩ | ⟨_, _, h⟩ | h <;> simp [h]

/-- An escaped character does not begin like the end of the string. -/
theorem escapeDebug_head (c : Char) (z : List Char) :
    (escapeDebug isPlain c ++ z).head? ≠ some '"' := by
  rcases @escapeDebug_cases isPlain c with ⟨_, _, h⟩ | ⟨_, hquote, h⟩ | h
  · simp [h]
  · simpa [h] using hquote
  · simp [h]

theorem escapeDebug_append_inj {c d : Char} {x y : List Char}
    (h : escapeDebug isPlain c ++ x = escapeDebug isPlain d ++ y) : c = d ∧ x = y := by
  have hletter : ∀ p ∈ letterEscapes, ∀ q ∈ letterEscapes, p.2 = q.2 → p = q := by decide
  have hu : ∀ p ∈ letterEscapes, p.2 ≠ 'u' := by decide
  have hbrace : ∀ n < 16, Nat.digitChar n ≠ '\x7d' := by decide
  rcases @escapeDebug_cases isPlain c with ⟨k, hk, hc⟩ | ⟨hslash, -, hc⟩ | hc <;>
    rcases @escapeDebug_cases isPlain d with ⟨l, hl, hd⟩ | ⟨hslash', -, hd⟩ | hd <;>
    rw [hc, hd] at h
  · obtain ⟨hkl, hrest⟩ := List.cons.inj (List.cons.inj h).2
    exact ⟨congrArg Prod.fst (hletter _ hk _ hl hkl), hrest⟩
  · exact absurd (List.cons.inj h).1.symm hslash'
  · exact absurd (List.cons.inj (List.cons.inj h).2).1 (hu _ hk)
  · exact absurd (List.cons.inj h).1 hslash
  · exact ⟨(List.cons.inj h).1, (List.cons.inj h).2⟩
  · exact absurd (List.cons.inj h).1 hslash
  · exact absurd (List.cons.inj (List.cons.inj h).2).1.symm (hu _ hl)
  · exact absurd (List.cons.inj h).1.symm hslash'
  · simp only [List.cons_append, List.cons.injEq, true_and, List.append_assoc,
      List.nil_append] at h
    obtain ⟨hdigits, hrest⟩ := append_inj_of_separator (not_mem_toDigits_sixteen hbrace _)
      (not_mem_toDigits_sixteen hbrace _) h
    exact ⟨Char.toNat_inj.mp (toDigits_sixteen_injective hdigits), hrest⟩

theorem debugText_append_inj {a b x y : List Char}
    (h : debugText isPlain a ++ x = debugText isPlain b ++ y) : a = b ∧ x = y := by
  have hinner : ∀ a b : List Char, a.flatMap (escapeDebug isPlain) ++ '"' :: x =
      b.flatMap (escapeDebug isPlain) ++ '"' :: y → a = b ∧ x = y := by
    intro a
    induction a with
    | nil =>
      intro b h
      cases b with
      | nil => exact ⟨rfl, (List.cons.inj h).2⟩
      | cons d b =>
        rw [List.flatMap_nil, List.nil_append, List.flatMap_cons, List.append_assoc] at h
        exact absurd (by rw [← h]; rfl) (@escapeDebug_head isPlain d
          (b.flatMap (escapeDebug isPlain) ++ '"' :: y))
    | cons c a ih =>
      intro b h
      cases b with
      | nil =>
        rw [List.flatMap_nil, List.nil_append, List.flatMap_cons, List.append_assoc] at h
        exact absurd (by rw [h]; rfl) (@escapeDebug_head isPlain c
          (a.flatMap (escapeDebug isPlain) ++ '"' :: x))
      | cons d b =>
        rw [List.flatMap_cons, List.flatMap_cons, List.append_assoc, List.append_assoc] at h
        obtain ⟨rfl, hrest⟩ := escapeDebug_append_inj h
        obtain ⟨rfl, hxy⟩ := ih b hrest
        exact ⟨rfl, hxy⟩
  simp only [debugText, List.cons_append, List.append_assoc, List.nil_append,
    List.cons.injEq, true_and] at h
  exact hinner a b h

end Debug

/-! ## The whole text -/

section Render

variable (isPlain : Char → Bool)

def headText (mode : Mode) (length : Length) : List Char :=
  modeText mode ++ "<len=".toList ++ lengthText length ++ ['>']

def classText (cls : ClassVector) : List Char :=
  if cls.known then
    " class=[".toList ++ listed [','] 0 (cls.names.map fun name => debugText isPlain name.toList) ++
      [']'] ++ if cls.names.length ≥ 4 then " (may be truncated at 4 classes)".toList else []
  else " class=?".toList

def closeText (complete locallyConstructed : Bool) : List Char :=
  (if complete then "; complete\x7d".toList else "; open\x7d".toList) ++
    if locallyConstructed then " (locally constructed: true)".toList
    else " (locally constructed: false)".toList

def noSignatureText (mode : Mode) : List Char :=
  if mode.mayBeFunction then " function=?".toList else []

@[irreducible] def noColumnsText : List Char := " columns=?".toList

@[irreducible] def functionText : List Char := " function=partial(params=[".toList

mutual
def render : RType → List Char
  | ⟨mode, length, cls, columns, fnSig, members, _⟩ =>
    headText mode length ++
      (if mode = .union then ['['] ++ renderMembers members ++ [']'] else []) ++
      classText isPlain cls ++ renderColumns columns ++ renderSignature fnSig mode
termination_by structural t => t
def renderMembers : Option (List RType) → List Char
  | none => ['?']
  | some members => listed [',', ' '] 0 (renderTypes members)
termination_by structural m => m
def renderColumns : Option (ColumnSchema RType) → List Char
  | none => noColumnsText
  | some schema => ['\x7b'] ++ renderSchema schema
termination_by structural s => s
def renderSchema : ColumnSchema RType → List Char
  | ⟨columns, complete, locallyConstructed⟩ =>
    listed [',', ' '] 0 (renderFields columns) ++ closeText complete locallyConstructed
termination_by structural s => s
def renderSignature : Option (FunctionSignature RType) → Mode → List Char
  | none, mode => noSignatureText mode
  | some signature, _ => renderFunction signature
termination_by structural s => s
def renderFunction : FunctionSignature RType → List Char
  | ⟨params, returnType⟩ =>
    functionText ++ listed [',', ' '] 0 (renderTypes params) ++
      "], return=".toList ++ render returnType ++ [')']
termination_by structural s => s
def renderTypes : List RType → List (List Char)
  | [] => []
  | t :: ts => render t :: renderTypes ts
termination_by structural ts => ts
def renderFields : List (String × RType) → List (List Char)
  | [] => []
  | c :: cs => renderField c :: renderFields cs
termination_by structural cs => cs
def renderField : String × RType → List Char
  | (name, t) => debugText isPlain name.toList ++ [':', ' '] ++ render t
termination_by structural c => c
end

end Render

variable {isPlain : Char → Bool}

/-- The step goes on from the text, and adds this to it where nothing is cut off or left out. -/
structure Writes (r r' : Renderer) (text : List Char) : Prop where
  grows : Grows r r'
  adds : r.compact = false → r'.truncated = false → r'.text = r.text ++ text

namespace Writes

theorem refl (r : Renderer) : Writes r r [] := ⟨Grows.refl r, fun _ _ => (List.append_nil _).symm⟩

theorem trans {r r' r'' : Renderer} {text text' : List Char} (h : Writes r r' text)
    (h' : Writes r' r'' text') : Writes r r'' (text ++ text') := by
  refine ⟨h.grows.trans h'.grows, fun hr hgoing => ?_⟩
  rw [h'.adds (h.grows.compact.trans hr) hgoing, h.adds hr (h'.grows.going hgoing),
    List.append_assoc]

/-- What is written of a compact text does not matter here. -/
theorem of_expanded {r r' : Renderer} {text : List Char} (hgrows : Grows r r')
    (h : r.compact = false → Writes r r' text) : Writes r r' text :=
  ⟨hgrows, fun hr => (h hr).adds hr⟩

theorem push (r : Renderer) (value : List Char) (hvalue : value.getLast? ≠ some '…') :
    Writes r (r.push value) value := by
  refine ⟨Grows.push r hvalue, fun _ hgoing => ?_⟩
  unfold Renderer.push at hgoing ⊢
  split
  · rename_i hstopped
    rw [if_pos hstopped] at hgoing
    exact absurd hstopped (by simp [hgoing])
  · rename_i hgo
    rw [if_neg hgo] at hgoing
    split
    · rename_i hlong
      rw [if_pos hlong] at hgoing
      cases hgoing
    · rfl

theorem ite {r a b : Renderer} {x y : List Char} {p : Prop} [Decidable p]
    (ha : p → Writes r a x) (hb : ¬p → Writes r b y) :
    Writes r (if p then a else b) (if p then x else y) := by
  split
  · rename_i h
    exact ha h
  · rename_i h
    exact hb h

/-- Nothing is added to a text that is cut off. -/
theorem ite_stopped {r r' : Renderer} {text : List Char} {p : Prop} [Decidable p]
    (h : Writes r r' text) (hp : p → r.truncated = true) : Writes r (if p then r else r') text := by
  split
  · rename_i hstopped
    refine ⟨Grows.refl r, fun _ hgoing => ?_⟩
    rw [hp hstopped] at hgoing
    cases hgoing
  · exact h

theorem separator (sep : List Char) (hsep : sep.getLast? ≠ some '…') (index : Nat) (r : Renderer) :
    Writes r (if index ≠ 0 then r.push sep else r) (if index ≠ 0 then sep else []) :=
  ite (fun _ => push r sep hsep) fun _ => refl r

end Writes

theorem byteLen_debugText (text : List Char) :
    text.length + 2 ≤ byteLen (debugText isPlain text) := by
  have hinner : text.length ≤ byteLen (text.flatMap (escapeDebug isPlain)) := by
    induction text with
    | nil => simp
    | cons c text ih =>
      have hpos := byteLen_pos (@escapeDebug_ne_nil isPlain c)
      rw [List.flatMap_cons, byteLen_append, List.length_cons]
      omega
  have hquote : byteLen ['"'] = 1 := by decide
  have hpos := Char.utf8Size_pos '"'
  rw [debugText, byteLen_cons, byteLen_append, hquote]
  omega

namespace Writes

/-- A name that is cut does not fit. -/
theorem escapedName (r : Renderer) (name : List Char) :
    Writes r (r.escapedName isPlain name) (debugText isPlain name) := by
  refine ⟨Grows.escapedName r name, fun hr hgoing => ?_⟩
  unfold Renderer.escapedName at hgoing ⊢
  have hquote : (debugText isPlain (name.take (r.maxBytes - byteLen r.text))).getLast? ≠
      some '…' := by
    rw [debugText_getLast?]
    decide
  rw [(push r _ hquote).adds hr hgoing]
  suffices hshort : name.length ≤ r.maxBytes - byteLen r.text by
    rw [List.take_of_length_le hshort]
  by_contra hlong
  have hbytes := @byteLen_debugText isPlain (name.take (r.maxBytes - byteLen r.text))
  rw [List.length_take, min_eq_left (by omega)] at hbytes
  unfold Renderer.push at hgoing
  split at hgoing
  · simp_all
  · rw [if_pos (by omega)] at hgoing
    cases hgoing

theorem classNames (index : Nat) (names : List String) (r : Renderer) :
    Writes r (r.classNames isPlain index names)
      (listed [','] index (names.map fun name => debugText isPlain name.toList)) := by
  induction names generalizing index r with
  | nil => exact refl r
  | cons name names ih =>
    unfold Renderer.classNames
    refine ite_stopped ?_ id
    exact ((separator [','] (by decide) index r).trans (escapedName _ _)).trans (ih _ _)

theorem classVector (cls : ClassVector) (r : Renderer) :
    Writes r (r.classVector isPlain cls) (classText isPlain cls) := by
  refine of_expanded (Grows.classVector cls r) fun hr => ?_
  have hnames := (push r " class=[".toList (by decide)).trans
    (@classNames isPlain 0 cls.names _)
  unfold Renderer.classVector classText
  simp only [hr, or_true, if_true, Bool.false_eq_true, if_false, hnames.grows.compact]
  refine ite (fun _ => (hnames.trans (push _ [']'] (by decide))).trans ?_) fun _ =>
    push r _ (by decide)
  exact ite (fun _ => push _ _ (by decide)) fun _ => refl _

theorem closeSchema (complete locallyConstructed : Bool) (r : Renderer) :
    Writes r (r.closeSchema complete locallyConstructed)
      (closeText complete locallyConstructed) := by
  refine of_expanded (Grows.closeSchema _ _ r) fun hr => ?_
  have hclose := push r (if complete then "; complete\x7d".toList else "; open\x7d".toList)
    (by split <;> decide)
  unfold Renderer.closeSchema closeText
  simp only [hclose.grows.compact, hr, if_true]
  exact hclose.trans (push _ _ (by split <;> decide))

theorem noSignature (mode : Mode) (r : Renderer) :
    Writes r (r.noSignature mode) (noSignatureText mode) := by
  refine of_expanded (Grows.noSignature mode r) fun hr => ?_
  unfold Renderer.noSignature noSignatureText
  simp only [hr, Bool.false_eq_true, if_false]
  exact ite (fun _ => push r _ (by decide)) fun _ => refl r

theorem head (mode : Mode) (length : Length) (r : Renderer) :
    Writes r (r.push (headText mode length)) (headText mode length) := by
  refine push r _ ?_
  rw [headText, List.getLast?_concat]
  decide

end Writes

open Writes

mutual
theorem ty_writes : ∀ t depth r, Writes r (ty isPlain t depth r) (render isPlain t)
  | ⟨mode, length, cls, columns, fnSig, members, facts⟩, depth, r => by
    rw [ty, render]
    refine ite_stopped ?_ id
    split
    · refine ⟨Grows.omitted r, fun _ hgoing => ?_⟩
      cases hgoing
    · have hmembers (r : Renderer) : Writes r (if mode = .union then
          (tyMembers isPlain members (depth + 1) (r.push ['['])).push [']'] else r)
          (if mode = .union then ['['] ++ renderMembers isPlain members ++ [']'] else []) := by
        refine Writes.ite (fun _ => ?_) fun _ => refl r
        exact ((push r ['['] (by decide)).trans (tyMembers_writes members _ _)).trans
          (push _ [']'] (by decide))
      exact ((((head mode length r).trans (hmembers _)).trans (Writes.classVector cls _)).trans
        (tyColumns_writes columns _ _)).trans (tySignature_writes fnSig mode _ _)
termination_by structural t => t
theorem tyMembers_writes : ∀ members depth r,
    Writes r (tyMembers isPlain members depth r) (renderMembers isPlain members)
  | none, depth, r => by
    rw [tyMembers, renderMembers]
    exact push r _ (by decide)
  | some members, depth, r => by
    refine of_expanded (tyMembers_grows (some members) depth r) fun hr => ?_
    have hshown : r.shown members.length = members.length := by simp [Renderer.shown, hr]
    rw [tyMembers, renderMembers, hshown]
    simp only [Nat.lt_irrefl, false_and, if_false]
    exact tyList_writes members 0 members.length depth r (Nat.zero_add _).le
termination_by structural m => m
theorem tyColumns_writes : ∀ columns depth r,
    Writes r (tyColumns isPlain columns depth r) (renderColumns isPlain columns)
  | none, depth, r => by
    refine of_expanded (tyColumns_grows none depth r) fun hr => ?_
    rw [tyColumns, renderColumns, if_pos hr, noColumnsText]
    exact push r _ (by decide)
  | some schema, depth, r => by
    rw [tyColumns, renderColumns]
    exact (push r _ (by decide)).trans (tySchema_writes schema depth _)
termination_by structural s => s
theorem tySchema_writes : ∀ schema depth r,
    Writes r (tySchema isPlain schema depth r) (renderSchema isPlain schema)
  | ⟨columns, complete, locallyConstructed⟩, depth, r => by
    refine of_expanded (tySchema_grows ⟨columns, complete, locallyConstructed⟩ depth r) fun hr => ?_
    have hshown : r.shown columns.length = columns.length := by simp [Renderer.shown, hr]
    rw [tySchema, renderSchema, hshown]
    simp only [Nat.lt_irrefl, false_and, if_false]
    exact (tyFields_writes columns 0 columns.length depth r (Nat.zero_add _).le).trans
      (Writes.closeSchema _ _ _)
termination_by structural s => s
theorem tySignature_writes : ∀ fnSig mode depth r,
    Writes r (tySignature isPlain fnSig mode depth r) (renderSignature isPlain fnSig mode)
  | none, mode, depth, r => by
    rw [tySignature, renderSignature]
    exact Writes.noSignature mode r
  | some signature, mode, depth, r => by
    rw [tySignature, renderSignature]
    exact tyFunction_writes signature depth r
termination_by structural s => s
theorem tyFunction_writes : ∀ signature depth r,
    Writes r (tyFunction isPlain signature depth r) (renderFunction isPlain signature)
  | ⟨params, returnType⟩, depth, r => by
    refine of_expanded (tyFunction_grows ⟨params, returnType⟩ depth r) fun hr => ?_
    rw [tyFunction, renderFunction, if_neg (by simp [hr]), functionText]
    have hparams := (push r " function=partial(params=[".toList (by decide)).trans
      (tyList_writes params 0 params.length depth _ (Nat.zero_add _).le)
    exact ((hparams.trans (push _ "], return=".toList (by decide))).trans
      (ty_writes returnType depth _)).trans (push _ [')'] (by decide))
termination_by structural s => s
theorem tyList_writes : ∀ ts index shown depth r, index + ts.length ≤ shown →
    Writes r (tyList isPlain ts index shown depth r)
      (listed [',', ' '] index (renderTypes isPlain ts))
  | [], index, shown, depth, r, _ => by
    rw [tyList, renderTypes]
    exact refl r
  | t :: ts, index, shown, depth, r, hshown => by
    rw [tyList, renderTypes, listed]
    rw [List.length_cons] at hshown
    refine ite_stopped ?_ fun h => h.resolve_left (by omega)
    exact ((separator [',', ' '] (by decide) index r).trans (ty_writes t depth _)).trans
      (tyList_writes ts (index + 1) shown depth _ (by omega))
termination_by structural ts => ts
theorem tyFields_writes : ∀ cs index shown depth r, index + cs.length ≤ shown →
    Writes r (tyFields isPlain cs index shown depth r)
      (listed [',', ' '] index (renderFields isPlain cs))
  | [], index, shown, depth, r, _ => by
    rw [tyFields, renderFields]
    exact refl r
  | c :: cs, index, shown, depth, r, hshown => by
    rw [tyFields, renderFields, listed]
    rw [List.length_cons] at hshown
    refine ite_stopped ?_ fun h => h.resolve_left (by omega)
    exact ((separator [',', ' '] (by decide) index r).trans (tyField_writes c depth _)).trans
      (tyFields_writes cs (index + 1) shown depth _ (by omega))
termination_by structural cs => cs
theorem tyField_writes : ∀ c depth r,
    Writes r (tyField isPlain c depth r) (renderField isPlain c)
  | (name, t), depth, r => by
    rw [tyField, renderField]
    exact ((Writes.escapedName r _).trans (push _ [':', ' '] (by decide))).trans
      (ty_writes t depth _)
termination_by structural c => c
end

theorem expandedType_text {t : RType} (h : (expandedType isPlain t).truncated = false) :
    (expandedType isPlain t).text = render isPlain t := by
  have hwrites := @ty_writes isPlain t 0 (.new detailBytes false)
  unfold expandedType Renderer.finish at h ⊢
  split
  · rename_i hcut
    rw [if_pos hcut] at h
    cases h
  · rename_i hgoing
    simpa [Renderer.new] using hwrites.adds rfl (by simpa using hgoing)

end Ry.Presentation
