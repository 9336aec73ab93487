import Ry.Core.Presentation

/-! # What a renderer keeps

Every step of the renderer stays within the budget, does not end the text in an ellipsis, and goes
on from no text that is cut off.  A text that is not cut off is `render` of the type, piece after
piece.
-/

namespace Ry.Presentation

/-- The text fits, and does not look cut off. -/
def Renderer.Sane (r : Renderer) : Prop :=
  byteLen r.text ≤ r.maxBytes ∧ r.text.getLast? ≠ some '…'

/-- What no step of a rendering undoes. -/
structure Grows (r r' : Renderer) : Prop where
  compact : r'.compact = r.compact
  maxBytes : r'.maxBytes = r.maxBytes
  sane : r.Sane → r'.Sane
  stopped : r.truncated = true → r'.truncated = true

namespace Grows

theorem refl (r : Renderer) : Grows r r := ⟨rfl, rfl, id, id⟩

theorem trans {r r' r'' : Renderer} (h : Grows r r') (h' : Grows r' r'') : Grows r r'' :=
  ⟨h'.compact.trans h.compact, h'.maxBytes.trans h.maxBytes, h'.sane ∘ h.sane,
    h'.stopped ∘ h.stopped⟩

theorem ite {r a b : Renderer} {p : Prop} [Decidable p] (ha : Grows r a) (hb : Grows r b) :
    Grows r (if p then a else b) := by
  split
  · exact ha
  · exact hb

/-- What goes on from a text that is not cut off was not before. -/
theorem going {r r' : Renderer} (h : Grows r r') (hgoing : r'.truncated = false) :
    r.truncated = false := by
  rw [← Bool.not_eq_true]
  intro hstopped
  rw [h.stopped hstopped] at hgoing
  cases hgoing

theorem push (r : Renderer) {value : List Char} (hvalue : value.getLast? ≠ some '…') :
    Grows r (r.push value) := by
  unfold Renderer.push
  split
  · exact refl r
  · split
    · rename_i hgoing _
      exact ⟨rfl, rfl, id, fun hstopped => absurd hstopped hgoing⟩
    · rename_i hgoing hfits
      refine ⟨rfl, rfl, fun hsane => ⟨?_, ?_⟩, fun hstopped => absurd hstopped hgoing⟩
      · have hbefore := hsane.1
        change byteLen (r.text ++ value) ≤ r.maxBytes
        rw [byteLen_append]
        omega
      · cases value with
        | nil => simpa using hsane.2
        | cons c value =>
          change (r.text ++ c :: value).getLast? ≠ some '…'
          rwa [List.getLast?_append_of_ne_nil _ (List.cons_ne_nil c value)]

end Grows

variable {isPlain : Char → Bool}

theorem debugText_getLast? (text : List Char) : (debugText isPlain text).getLast? = some '"' := by
  unfold debugText
  rw [← List.cons_append, List.getLast?_concat]

namespace Grows

theorem escapedName (r : Renderer) (name : List Char) : Grows r (r.escapedName isPlain name) := by
  refine push r ?_
  rw [debugText_getLast?]
  decide

theorem classNames (index : Nat) (names : List String) (r : Renderer) :
    Grows r (r.classNames isPlain index names) := by
  induction names generalizing index r with
  | nil => exact refl r
  | cons name names ih =>
    unfold Renderer.classNames
    split
    · exact refl r
    · have hcomma : Grows r (if index ≠ 0 then r.push [','] else r) :=
        ite (push r (by decide)) (refl r)
      exact (hcomma.trans (escapedName _ _)).trans (ih _ _)

theorem classVector (cls : ClassVector) (r : Renderer) : Grows r (r.classVector isPlain cls) := by
  have hopen : Grows r ((r.push (if r.compact then [':'] else " class=[".toList)).classNames
      isPlain 0 cls.names) := by
    refine (push r ?_).trans (classNames 0 _ _)
    split <;> decide
  have hunknown : Grows r (r.push (if r.compact then [':', '?'] else " class=?".toList)) := by
    refine push r ?_
    split <;> decide
  unfold Renderer.classVector
  refine ite (ite (hopen.trans (ite ?_ (ite (push _ (by decide)) (refl _)))) (refl r)) hunknown
  exact (push _ (by decide)).trans (ite (push _ (by decide)) (refl _))

theorem noSignature (mode : Mode) (r : Renderer) : Grows r (r.noSignature mode) := by
  unfold Renderer.noSignature
  refine ite (push r ?_) (refl r)
  split <;> decide

theorem closeSchema (complete locallyConstructed : Bool) (r : Renderer) :
    Grows r (r.closeSchema complete locallyConstructed) := by
  have hclose : Grows r (r.push (if complete then "; complete\x7d".toList
      else "; open\x7d".toList)) := by
    refine push r ?_
    split <;> decide
  unfold Renderer.closeSchema
  refine hclose.trans (ite (push _ ?_) (refl _))
  split <;> decide

theorem head (mode : Mode) (length : Length) (r : Renderer) :
    Grows r (r.push (modeText mode ++ "<len=".toList ++ lengthText length ++ ['>'])) := by
  refine push r ?_
  rw [List.getLast?_concat]
  decide

theorem omitted (r : Renderer) :
    Grows r { r.push "[nested facts omitted]".toList with truncated := true } := by
  have hpush : Grows r (r.push "[nested facts omitted]".toList) := push r (by decide)
  exact ⟨hpush.compact, hpush.maxBytes, hpush.sane, fun _ => rfl⟩

theorem separator (index : Nat) (r : Renderer) :
    Grows r (if index ≠ 0 then r.push [',', ' '] else r) := ite (push r (by decide)) (refl r)

end Grows

open Grows

mutual
theorem ty_grows : ∀ t depth r, Grows r (ty isPlain t depth r)
  | ⟨mode, length, cls, columns, fnSig, members, facts⟩, depth, r => by
    rw [ty]
    refine Grows.ite (refl r) (Grows.ite (omitted r) ?_)
    have hmembers (r : Renderer) : Grows r (if mode = .union then
        (tyMembers isPlain members (depth + 1) (r.push ['['])).push [']'] else r) := by
      refine Grows.ite ?_ (refl r)
      exact ((push r (by decide)).trans (tyMembers_grows members _ _)).trans (push _ (by decide))
    exact (((head mode length r).trans (hmembers _)).trans (Grows.classVector cls _)).trans
      ((tyColumns_grows columns _ _).trans (tySignature_grows fnSig mode _ _))
termination_by structural t => t
theorem tyMembers_grows : ∀ members depth r, Grows r (tyMembers isPlain members depth r)
  | none, depth, r => by
    rw [tyMembers]
    exact push r (by decide)
  | some members, depth, r => by
    rw [tyMembers]
    refine (tyList_grows members 0 (r.shown members.length) depth r).trans
      (Grows.ite (push _ ?_) (refl _))
    rw [List.getLast?_append_of_ne_nil _ (by decide)]
    decide
termination_by structural m => m
theorem tyColumns_grows : ∀ columns depth r, Grows r (tyColumns isPlain columns depth r)
  | none, depth, r => by
    rw [tyColumns]
    exact Grows.ite (push r (by decide)) (refl r)
  | some schema, depth, r => by
    rw [tyColumns]
    exact (push r (by decide)).trans (tySchema_grows schema depth _)
termination_by structural s => s
theorem tySchema_grows : ∀ schema depth r, Grows r (tySchema isPlain schema depth r)
  | ⟨columns, complete, locallyConstructed⟩, depth, r => by
    rw [tySchema]
    refine Grows.trans ?_ (closeSchema complete locallyConstructed _)
    refine (tyFields_grows columns 0 (r.shown columns.length) depth r).trans
      (Grows.ite ((separator _ _).trans (push _ ?_)) (refl _))
    rw [List.getLast?_append_of_ne_nil _ (by decide)]
    decide
termination_by structural s => s
theorem tySignature_grows : ∀ fnSig mode depth r, Grows r (tySignature isPlain fnSig mode depth r)
  | none, mode, depth, r => by
    rw [tySignature]
    exact noSignature mode r
  | some signature, mode, depth, r => by
    rw [tySignature]
    exact tyFunction_grows signature depth r
termination_by structural s => s
theorem tyFunction_grows : ∀ signature depth r, Grows r (tyFunction isPlain signature depth r)
  | ⟨params, returnType⟩, depth, r => by
    rw [tyFunction]
    refine Grows.ite ((push r (by decide)).trans (ty_grows returnType depth _)) ?_
    have hopen : Grows r (r.push " function=partial(params=[".toList) := push r (by decide)
    have hparams := hopen.trans (tyList_grows params 0 params.length depth _)
    exact ((hparams.trans (push _ (by decide))).trans (ty_grows returnType depth _)).trans
      (push _ (by decide))
termination_by structural s => s
theorem tyList_grows : ∀ ts index shown depth r, Grows r (tyList isPlain ts index shown depth r)
  | [], index, shown, depth, r => by
    rw [tyList]
    exact refl r
  | t :: ts, index, shown, depth, r => by
    rw [tyList]
    exact Grows.ite (refl r)
      (((separator index r).trans (ty_grows t depth _)).trans (tyList_grows ts _ _ _ _))
termination_by structural ts => ts
theorem tyFields_grows : ∀ cs index shown depth r,
    Grows r (tyFields isPlain cs index shown depth r)
  | [], index, shown, depth, r => by
    rw [tyFields]
    exact refl r
  | c :: cs, index, shown, depth, r => by
    rw [tyFields]
    exact Grows.ite (refl r)
      (((separator index r).trans (tyField_grows c depth _)).trans (tyFields_grows cs _ _ _ _))
termination_by structural cs => cs
theorem tyField_grows : ∀ c depth r, Grows r (tyField isPlain c depth r)
  | (name, t), depth, r => by
    rw [tyField]
    exact ((Grows.escapedName r _).trans (push _ (by decide))).trans (ty_grows t depth _)
termination_by structural c => c
end

/-! ## The budget -/

namespace Renderer

theorem popFor_fits {maxBytes : Nat} (hmax : 3 ≤ maxBytes) (text : List Char) :
    byteLen (popFor maxBytes text) + 3 ≤ maxBytes := by
  induction text using List.reverseRecOn with
  | nil =>
    unfold popFor
    simpa using hmax
  | append_singleton text c ih =>
    unfold popFor
    split
    · rwa [List.dropLast_concat]
    · rename_i h
      by_contra hlong
      exact h ⟨by simp, by omega⟩

/-- The text a rendering ends with is within the budget, and ends in the ellipsis exactly when it is
cut off. -/
theorem finish_view {r : Renderer} (hmax : 3 ≤ r.maxBytes) (h : r.Sane) :
    byteLen r.finish.text ≤ r.maxBytes ∧
      (r.finish.text.getLast? = some '…' ↔ r.finish.truncated = true) := by
  unfold finish
  split
  · refine ⟨?_, by simp⟩
    have hfits := popFor_fits hmax r.text
    have hellipsis : byteLen ['…'] = 3 := by decide
    rw [byteLen_append, hellipsis]
    exact hfits
  · exact ⟨h.1, ⟨fun hlast => absurd hlast h.2, fun hcut => absurd hcut Bool.false_ne_true⟩⟩

theorem new_sane (maxBytes : Nat) (compact : Bool) : (new maxBytes compact).Sane :=
  ⟨Nat.zero_le _, by simp [new]⟩

end Renderer

theorem finish_ty (t : RType) {maxBytes : Nat} (hmax : 3 ≤ maxBytes) (compact : Bool) :
    let view := (ty isPlain t 0 (.new maxBytes compact)).finish
    byteLen view.text ≤ maxBytes ∧ (view.text.getLast? = some '…' ↔ view.truncated = true) := by
  have hgrows : Grows (.new maxBytes compact) (ty isPlain t 0 (.new maxBytes compact)) :=
    ty_grows t 0 _
  have hview := Renderer.finish_view (r := ty isPlain t 0 (.new maxBytes compact))
    (by rw [hgrows.maxBytes]; exact hmax) (hgrows.sane (Renderer.new_sane maxBytes compact))
  rw [hgrows.maxBytes] at hview
  exact hview

end Ry.Presentation
