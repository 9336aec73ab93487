import Ry.Infer.Matching
import Ry.S4.Merged

/-! # A selected method is the nearest

R normalizes each registered signature to one class per dispatch position, keeps the last
registration of a signature, and runs the method whose classes are nearest to the classes of the
actuals.  The selection knows some of those classes and none of the relations between classes; a
method it selects is the nearest for all of them.
-/

namespace Ry.S4

/-! ## R's dispatch -/

/-- The generic's formals and the order of its dispatch: what all its declarations say or,
without one, the formals of the base function but the dots. -/
def IsGeneric (registrations : List Registration) (name : String)
    (coreFormals : Option (List String)) (formals signature : List String) : Prop :=
  let declared := registrations.filterMap (declarationOf name)
  (declared = [] ∧ coreFormals = some formals ∧ signature = formals.filter (· ≠ "...")) ∨
    (declared ≠ [] ∧ ∀ decl ∈ declared, decl = .literal formals signature)

/-- The class that the entries give a dispatch position, `ANY` if none does. -/
def classAt (signature : List String) (entries : List ((Option String × String) × Nat))
    (position : Nat) : String :=
  ((entries.filter fun e => entryPosition signature e.1.1 e.2 == some position).getLast?.map
    fun e => e.1.2).getD "ANY"

/-- The normalized signature of a registration. -/
def signatureClasses (signature : List String) (entries : Entries) : List String :=
  (List.range signature.length).map (classAt signature entries.zipIdx)

/-- The method R keeps for a normalized signature. -/
def lastFor (signature : List String) (methods : List S4Method) (classes : List String) :
    Option S4Method :=
  (methods.filter fun method => signatureClasses signature method.entries == classes).getLast?

/-- How far a superclass is from a class; `none` where it is none. -/
structure Superclasses where
  distance : String → String → Option Nat
  zero_iff : ∀ cls super, distance cls super = some 0 ↔ cls = super
  any_applies : ∀ cls, (distance cls "ANY").isSome = true
  any_farthest : ∀ cls super near far, super ≠ "ANY" → distance cls super = some near →
    distance cls "ANY" = some far → near < far
  missing_only : ∀ super n, distance "missing" super = some n → super = "missing" ∨ super = "ANY"

/-- The sum of the distances at the dispatch positions; `none` where a method does not apply. -/
def Superclasses.total (R : Superclasses) : List String → List String → Option Nat
  | [], [] => some 0
  | cls :: classes, super :: supers =>
    (R.distance cls super).bind fun n => (R.total classes supers).map (n + ·)
  | _, _ => none

/-- `nominal` applies to the classes, and every other signature is farther or does not. -/
def Nearest (R : Superclasses) (signatures : List (List String)) (classes nominal : List String) :
    Prop :=
  ∃ n, R.total classes nominal = some n ∧
    ∀ other ∈ signatures, other ≠ nominal → ∀ n', R.total classes other = some n' → n < n'

/-- The actual is for the formal at the dispatch position. -/
def Receives (formals signature : List String) (call : S4Call) (position actual : Nat) : Prop :=
  ∃ formal index, signature[position]? = some formal ∧
    formals.findIdx? (· == formal) = some index ∧
      (RCall.mk formals call.tags).binds actual index = true

/-- No registration may be a method for `initialize`. -/
def NoInitialize (registrations : List Registration) : Prop :=
  ∀ r ∈ registrations, isForAny r = false ∧ isIncomplete "initialize" r = false ∧
    methodOf "initialize" r = none

/-- Classes that R may dispatch the call on: the matching is R's, an omitted formal is `missing`, a
`new()` call gives its class unless a method for `initialize` may change it, a literal gives the
class of its kind, and every other actual may have any class. -/
structure DispatchesOn (registrations : List Registration) (formals signature : List String)
    (call : S4Call) (classes : List String) : Prop where
  formals_nodup : formals.Nodup
  accepted : (RCall.mk formals call.tags).Accepted
  length_eq : classes.length = signature.length
  omitted : ∀ position < signature.length,
    (∀ actual, ¬ Receives formals signature call position actual) →
      classes[position]? = some "missing"
  instance_of : ∀ position actual type cls, Receives formals signature call position actual →
    call.instances[actual]? = some true → call.argTypes[actual]? = some type →
      type.cls.hasKnownClass = true → type.cls.names.head? = some cls →
        NoInitialize registrations → classes[position]? = some cls
  literal : ∀ position actual argument cls, Receives formals signature call position actual →
    call.args[actual]? = some argument → literalClass argument.value = some cls →
      classes[position]? = some cls

/-! ## Distances -/

theorem Superclasses.total_self (R : Superclasses) (classes : List String) :
    R.total classes classes = some 0 := by
  induction classes with
  | nil => rfl
  | cons cls classes ih =>
    rw [total, (R.zero_iff cls cls).mpr rfl, ih]
    rfl

theorem Superclasses.pos_of_total (R : Superclasses) {classes supers : List String} {n : Nat}
    (h : R.total classes supers = some n) (hne : classes ≠ supers) : 0 < n := by
  induction classes generalizing supers n with
  | nil =>
    cases supers with
    | nil => exact absurd rfl hne
    | cons super supers => cases h
  | cons cls classes ih =>
    cases supers with
    | nil => cases h
    | cons super supers =>
      rw [total] at h
      obtain ⟨first, hfirst, hsum⟩ := Option.bind_eq_some_iff.mp h
      obtain ⟨rest, hrest, rfl⟩ := Option.map_eq_some_iff.mp hsum
      by_cases hcls : cls = super
      · subst hcls
        have hrestPos := ih hrest fun heq => hne (by rw [heq])
        omega
      · have hfirstPos : first ≠ 0 := by
          rintro rfl
          exact hcls ((R.zero_iff cls super).mp hfirst)
        omega

/-- `ANY` everywhere applies to everything. -/
theorem Superclasses.total_any (R : Superclasses) (classes : List String) :
    ∃ n, R.total classes (List.replicate classes.length "ANY") = some n := by
  induction classes with
  | nil => exact ⟨0, rfl⟩
  | cons cls classes ih =>
    obtain ⟨n, hn⟩ := ih
    obtain ⟨first, hfirst⟩ := Option.isSome_iff_exists.mp (R.any_applies cls)
    refine ⟨first + n, ?_⟩
    rw [List.length_cons, List.replicate_succ, total, hfirst, Option.bind_some, hn]
    rfl

/-! ## The table of methods -/

theorem length_signatureClasses (signature : List String) (entries : Entries) :
    (signatureClasses signature entries).length = signature.length := by
  rw [signatureClasses, List.length_map, List.length_range]

/-- Placing the entries one after the other gives each position its last. -/
theorem placeEntry_classAt {signature : List String}
    {entries : List ((Option String × String) × Nat)} {classes : List String}
    (h : entries.foldlM (placeEntry signature) (List.replicate signature.length "ANY") =
      some classes) :
    classes = (List.range signature.length).map (classAt signature entries) := by
  induction entries using List.reverseRecOn generalizing classes with
  | nil =>
    obtain rfl := Option.some.inj h
    refine List.ext_getElem (by simp) fun position h₁ h₂ => ?_
    simp [classAt]
  | append_singleton entries e ih =>
    obtain ⟨⟨name, cls⟩, index⟩ := e
    rw [List.foldlM_append] at h
    obtain ⟨earlier, hearlier, hlast⟩ := Option.bind_eq_some_iff.mp h
    have hclasses := ih hearlier
    rw [List.foldlM_cons] at hlast
    obtain ⟨placed, hplaced, hpure⟩ := Option.bind_eq_some_iff.mp hlast
    obtain rfl := Option.some.inj hpure
    unfold placeEntry at hplaced
    obtain ⟨position, hposition, hset⟩ := Option.bind_eq_some_iff.mp hplaced
    split at hset
    · rename_i hlt
      obtain rfl := Option.some.inj hset
      refine List.ext_getElem (by simp [hclasses]) fun p h₁ h₂ => ?_
      have hp : (entryPosition signature name index == some p) = decide (position = p) := by
        rw [hposition]
        by_cases heq : position = p <;> simp [heq]
      rw [List.getElem_set, List.getElem_map, List.getElem_range, classAt, List.filter_append,
        List.filter_singleton, hp]
      by_cases heq : position = p
      · subst heq
        simp
      · simp only [heq, decide_false, if_false, cond_false, List.append_nil, hclasses,
          List.getElem_map, List.getElem_range]
        rfl
    · cases hset

theorem normalizeEntries_eq {signature : List String} {entries : Entries} {classes : List String}
    (h : normalizeEntries signature entries = some classes) :
    classes = signatureClasses signature entries := by
  unfold normalizeEntries at h
  dsimp only at h
  split at h
  · cases h
  · exact placeEntry_classAt h

/-- The table keeps, for each signature, the function of its last registration. -/
theorem mem_normalized_iff {signature : List String} {methods : List S4Method}
    {table : List (List String × Option String)} (h : normalized signature methods = some table)
    (classes : List String) (function : Option String) :
    (classes, function) ∈ table ↔
      (lastFor signature methods classes).map S4Method.function = some function := by
  induction methods using List.reverseRecOn generalizing table with
  | nil =>
    obtain rfl := Option.some.inj h
    simp [lastFor]
  | append_singleton methods method ih =>
    unfold normalized at h
    rw [List.foldlM_append] at h
    obtain ⟨earlier, hearlier, hlast⟩ := Option.bind_eq_some_iff.mp h
    rw [List.foldlM_cons] at hlast
    obtain ⟨placed, hplaced, hpure⟩ := Option.bind_eq_some_iff.mp hlast
    obtain rfl := Option.some.inj hpure
    obtain ⟨own, hown, rfl⟩ := Option.map_eq_some_iff.mp hplaced
    obtain rfl := normalizeEntries_eq hown
    rw [List.mem_append, List.mem_filter, ih hearlier, List.mem_singleton, lastFor, lastFor,
      List.filter_append, List.filter_singleton]
    by_cases heq : signatureClasses signature method.entries = classes
    · subst heq
      simp [eq_comm]
    · have hne : classes ≠ signatureClasses signature method.entries := Ne.symm heq
      have hbeq : (signatureClasses signature method.entries == classes) = false := by
        simpa using heq
      rw [hbeq, cond_false, List.append_nil]
      simp [hne]

/-! ## The classes of a call -/

theorem definesMethod_eq (s4 : S4Inventory) (name : String) : s4.definesMethod name =
    (s4.allIncomplete || (s4.entry name).incomplete || !(s4.entry name).methods.isEmpty) := by
  unfold S4Inventory.definesMethod S4Inventory.entry
  cases s4.generics.lookup name with
  | none => simp [S4Generic.default]
  | some entry => simp [Bool.or_assoc]

theorem noInitialize_of_instancesExact {registrations : List Registration}
    (h : (inventory registrations).instancesExact = true) : NoInitialize registrations := by
  rw [S4Inventory.instancesExact, definesMethod_eq, entry_inventory, allIncomplete_inventory] at h
  simp only [Bool.not_or, Bool.not_not, Bool.and_eq_true, Bool.not_eq_true', List.any_eq_false,
    List.isEmpty_iff, List.filterMap_eq_nil_iff] at h
  obtain ⟨⟨hany, hincomplete⟩, hmethods⟩ := h
  intro r hr
  exact ⟨by simpa using hany r hr, by simpa using hincomplete r hr, hmethods r hr⟩

/-- What the call's classes are known to be is what R dispatches on. -/
theorem dispatchClasses_known {registrations : List Registration} {formals signature : List String}
    {call : S4Call} {known : List (Option String)} {classes : List String}
    (h : dispatchClasses formals signature call (inventory registrations).instancesExact =
      some known)
    (hR : DispatchesOn registrations formals signature call classes) :
    known.length = signature.length ∧
      ∀ (position : Nat) (cls : String), known[position]? = some (some cls) →
        classes[position]? = some cls := by
  unfold dispatchClasses at h
  split at h
  · cases h
  · dsimp only at h
    split at h
    · cases h
    · obtain rfl := Option.some.inj h
      refine ⟨by simp, fun position cls hknown => ?_⟩
      have hbinds : ∀ actual index,
          (matchArgumentNames formals call.tags).actual actual = some index ↔
            (RCall.mk formals call.tags).binds actual index = true := fun _ _ =>
        actual_matchArgumentNames hR.formals_nodup hR.accepted
      rw [List.getElem?_map, List.getElem?_zipIdx, Option.map_eq_some_iff] at hknown
      obtain ⟨_, hat, hclass⟩ := hknown
      obtain ⟨formal, hformal, rfl⟩ := Option.map_eq_some_iff.mp hat
      rw [Nat.zero_add] at hclass
      obtain ⟨index, hindex, hclass⟩ := Option.bind_eq_some_iff.mp hclass
      cases hactual : (matchArgumentNames formals call.tags).argForParam index with
      | none =>
        rw [hactual] at hclass
        obtain rfl := Option.some.inj hclass
        refine hR.omitted position (lt_length_of_getElem? hformal) ?_
        rintro actual ⟨formal', index', hformal', hindex', hreceives⟩
        obtain rfl := Option.some.inj (hformal.symm.trans hformal')
        obtain rfl := Option.some.inj (hindex.symm.trans hindex')
        exact argForParam_eq_none hactual actual ((hbinds actual index).mpr hreceives)
      | some actual =>
        have hreceives : Receives formals signature call position actual :=
          ⟨formal, index, hformal, hindex, (hbinds actual index).mp (argForParam_eq_some hactual)⟩
        rw [hactual] at hclass
        dsimp only at hclass
        obtain ⟨type, htype, hclass⟩ := Option.bind_eq_some_iff.mp hclass
        split at hclass
        · rename_i hinstance
          simp only [Bool.and_eq_true, beq_iff_eq] at hinstance
          obtain ⟨⟨hexact, hnew⟩, hknownClass⟩ := hinstance
          exact hR.instance_of position actual type cls hreceives hnew htype hknownClass hclass
            (noInitialize_of_instancesExact hexact)
        · obtain ⟨hliteral, -⟩ := Option.filter_eq_some_iff.mp hclass
          obtain ⟨argument, hargument, hliteral⟩ := Option.bind_eq_some_iff.mp hliteral
          exact hR.literal position actual argument cls hreceives hargument hliteral

/-! ## The two proofs -/

/-- Known to the last position, the classes are the signature's. -/
theorem nearest_of_exactMethod {table : List (List String × Option String)}
    {known : List (Option String)} {nominal : List String} {function : Option String}
    (h : exactMethod table known = some (nominal, function)) {classes : List String}
    (hlength : known.length = classes.length) (hnominal : nominal.length = classes.length)
    (hknown : ∀ (position : Nat) (cls : String), known[position]? = some (some cls) →
      classes[position]? = some cls) (R : Superclasses) (signatures : List (List String)) :
    Nearest R signatures classes nominal := by
  unfold exactMethod at h
  split at h
  · have hfound := List.find?_some h
    rw [List.all_eq_true] at hfound
    have hclasses : classes = nominal := by
      refine List.ext_getElem hnominal.symm fun position h₁ h₂ => ?_
      have hposition : position < known.length := hlength ▸ h₁
      have hmem : (nominal[position], known[position]) ∈ nominal.zip known := by
        refine List.mem_iff_getElem.mpr ⟨position, by simp [h₂, hposition], ?_⟩
        rw [List.getElem_zip]
      have hcls : known[position] = some nominal[position] := by simpa using hfound _ hmem
      have hat := hknown position nominal[position] (by
        rw [List.getElem?_eq_getElem hposition, hcls])
      rw [List.getElem?_eq_getElem h₁] at hat
      exact Option.some.inj hat
    subst hclasses
    refine ⟨0, R.total_self classes, fun other _ hne n hn => ?_⟩
    exact R.pos_of_total hn hne.symm
  · cases h

/-- Where only the receiver counts, the other positions are equally far for every method. -/
theorem nearest_of_receiverMethod {table : List (List String × Option String)}
    {known : List (Option String)} {nominal : List String} {function : Option String}
    (h : receiverMethod table known = some (nominal, function)) {classes : List String}
    (hpos : 0 < classes.length)
    (hlengths : ∀ method ∈ table, method.1.length = classes.length)
    (hknown : ∀ (position : Nat) (cls : String), known[position]? = some (some cls) →
      classes[position]? = some cls) (R : Superclasses) {signatures : List (List String)}
    (hsignatures : ∀ other ∈ signatures, ∃ function, (other, function) ∈ table) :
    Nearest R signatures classes nominal := by
  unfold receiverMethod at h
  obtain ⟨receiver, hreceiver, h⟩ := Option.bind_eq_some_iff.mp h
  split at h
  · rename_i hany
    have hfound : nominal.head? = some receiver := by simpa using List.find?_some h
    have hmem := List.mem_of_find?_eq_some h
    have hshape : ∀ method ∈ table, method.1.tail = List.replicate (classes.length - 1) "ANY" := by
      intro method hmethod
      refine List.eq_replicate_iff.mpr ⟨by rw [List.length_tail, hlengths method hmethod], ?_⟩
      intro cls hcls
      simpa using List.all_eq_true.mp (List.all_eq_true.mp hany method hmethod) cls hcls
    cases classes with
    | nil => cases hpos
    | cons cls classes =>
      have hcls : cls = receiver := by
        have hat := hknown 0 receiver (by
          rw [← List.head?_eq_getElem?]
          exact Option.join_eq_some_iff.mp hreceiver)
        exact Option.some.inj hat
      subst hcls
      obtain ⟨far, hfar⟩ := R.total_any classes
      have hrest : ∀ method ∈ table, method.1.tail = List.replicate classes.length "ANY" := hshape
      have hsplit : ∀ method ∈ table, ∃ super,
          method.1 = super :: List.replicate classes.length "ANY" := by
        intro method hmethod
        cases hentries : method.1 with
        | nil =>
          have hlength := hlengths method hmethod
          rw [hentries] at hlength
          cases hlength
        | cons super supers =>
          have htail := hrest method hmethod
          rw [hentries] at htail
          exact ⟨super, by rw [← htail]; rfl⟩
      obtain ⟨super, hnominal⟩ := hsplit _ hmem
      obtain rfl : nominal = cls :: List.replicate classes.length "ANY" := by
        have hhead : some super = some cls := by
          rw [← hfound]
          exact (congrArg List.head? hnominal).symm
        rw [← Option.some.inj hhead]
        exact hnominal
      have hown : R.total (cls :: classes) (cls :: List.replicate classes.length "ANY") =
          some far := by
        rw [Superclasses.total, (R.zero_iff cls cls).mpr rfl, Option.bind_some, hfar,
          Option.map_some, Nat.zero_add]
      refine ⟨far, hown, fun other hother hne n hn => ?_⟩
      obtain ⟨function', hmem'⟩ := hsignatures other hother
      obtain ⟨super', hother'⟩ := hsplit _ hmem'
      obtain rfl : other = super' :: List.replicate classes.length "ANY" := hother'
      rw [Superclasses.total] at hn
      obtain ⟨first, hfirst, hsum⟩ := Option.bind_eq_some_iff.mp hn
      rw [hfar, Option.map_some, Option.some.injEq] at hsum
      have hfirstPos : first ≠ 0 := by
        rintro rfl
        refine hne ?_
        rw [(R.zero_iff cls super').mp hfirst]
      omega
  · cases h

/-! ## The selection -/

/-- Declarations that agree, or none at all. -/
theorem foldl_mergeDecl {decls : List GenericDecl} (h : ∀ decl ∈ decls, decl ≠ .absent) :
    (decls.foldl mergeDecl .absent = .absent → decls = []) ∧
      ∀ formals signature, decls.foldl mergeDecl .absent = .literal formals signature →
        decls ≠ [] ∧ ∀ decl ∈ decls, decl = .literal formals signature := by
  induction decls using List.reverseRecOn with
  | nil => simp
  | append_singleton decls decl ih =>
    have hdecl : decl ≠ .absent := h decl (by simp)
    obtain ⟨habsent, hliteral⟩ := ih fun decl' hmem => h decl' (by simp [hmem])
    rw [List.foldl_append, List.foldl_cons, List.foldl_nil]
    cases hbefore : decls.foldl mergeDecl .absent with
    | absent =>
      obtain rfl := habsent hbefore
      rw [absent_mergeDecl]
      exact ⟨fun heq => absurd heq hdecl, fun formals signature heq => by simp [heq]⟩
    | opaqueDecl =>
      rw [opaqueDecl_mergeDecl]
      exact ⟨by simp, by simp⟩
    | literal formals signature =>
      have hall := (hliteral formals signature hbefore).2
      by_cases heq : GenericDecl.literal formals signature = decl
      · have hmerge : mergeDecl (.literal formals signature) decl = .literal formals signature := by
          rw [← heq]
          simp [mergeDecl]
        rw [hmerge]
        refine ⟨by simp, fun formals' signature' hsame => ⟨by simp, fun decl' hmem => ?_⟩⟩
        rw [← hsame]
        rcases List.mem_append.mp hmem with hmem | hmem
        · exact hall decl' hmem
        · exact (List.mem_singleton.mp hmem).trans heq.symm
      · have hmerge : mergeDecl (.literal formals signature) decl = .opaqueDecl := by
          cases decl with
          | absent => exact absurd rfl hdecl
          | opaqueDecl => rfl
          | literal formals' signature' => simp [mergeDecl, heq]
        rw [hmerge]
        exact ⟨by simp, by simp⟩

theorem isGeneric_of_established {registrations : List Registration} {name : String}
    {coreFormals : Option (List String)} {formals signature : List String}
    (h : ((inventory registrations).entry name).established coreFormals =
      some (formals, signature)) :
    IsGeneric registrations name coreFormals formals signature ∧ signature ≠ [] := by
  have hnotAbsent : ∀ decl ∈ registrations.filterMap (declarationOf name), decl ≠ .absent := by
    intro decl hmem
    obtain ⟨r, -, hr⟩ := List.mem_filterMap.mp hmem
    cases r with
    | declareGeneric declared decl' =>
      dsimp only [declarationOf] at hr
      split at hr
      · rename_i hdeclared
        obtain rfl := Option.some.inj hr
        exact hdeclared.2
      · cases hr
    | _ => cases hr
  obtain ⟨habsent, hliteral⟩ := foldl_mergeDecl hnotAbsent
  rw [entry_inventory, S4Generic.established] at h
  obtain ⟨hfound, hsignature⟩ := Option.filter_eq_some_iff.mp h
  refine ⟨?_, by simpa using hsignature⟩
  dsimp only at hfound
  cases hdecl : (registrations.filterMap (declarationOf name)).foldl mergeDecl .absent with
  | opaqueDecl =>
    rw [hdecl] at hfound
    cases hfound
  | literal formals' signature' =>
    rw [hdecl] at hfound
    obtain ⟨rfl, rfl⟩ := Prod.mk.inj (Option.some.inj hfound)
    exact Or.inr (hliteral _ _ hdecl)
  | absent =>
    rw [hdecl] at hfound
    obtain ⟨core, hcore, hbound⟩ := Option.bind_eq_some_iff.mp hfound
    split at hbound
    · cases hbound
    · obtain ⟨rfl, rfl⟩ := Prod.mk.inj (Option.some.inj hbound)
      exact Or.inl ⟨habsent hdecl, hcore, rfl⟩

/-- A selected method comes from one of the two proofs. -/
theorem exists_of_selectS4 {s4 : S4Inventory} {live : Table String UserFn} {call : S4Call}
    {f : UserFn} (h : selectS4 s4 live call = .method f) :
    s4.allIncomplete = false ∧ (s4.entry call.head.member).incomplete = false ∧
      ∃ formals signature table known nominal function,
        (s4.entry call.head.member).established call.coreFormals = some (formals, signature) ∧
        normalized signature (s4.entry call.head.member).methods = some table ∧
        dispatchClasses formals signature call s4.instancesExact = some known ∧
        (exactMethod table known).or (receiverMethod table known) =
          some (nominal, some function) ∧ live.lookup function = some f := by
  unfold selectS4 at h
  split at h
  · split at h <;> cases h
  · rename_i generic hgeneric
    obtain ⟨hlookup, -⟩ := Option.filter_eq_some_iff.mp hgeneric
    have hentry : s4.entry call.head.member = generic := by
      rw [S4Inventory.entry, hlookup]
      rfl
    rw [hentry]
    dsimp only at h
    split at h
    · cases h
    · split at h
      · split at h <;> cases h
      · split at h
        · cases h
        · rename_i hcomplete
          simp only [Bool.or_eq_true, not_or, Bool.not_eq_true] at hcomplete
          split at h
          · cases h
          · rename_i formals signature hestablished
            split at h
            · rename_i table known hnormalized hclasses
              split at h
              · rename_i nominal function hmethod
                cases hlive : live.lookup function with
                | none =>
                  rw [hlive] at h
                  cases h
                | some f' =>
                  rw [hlive] at h
                  cases h
                  exact ⟨hcomplete.1, hcomplete.2, formals, signature, table, known, nominal,
                    function, hestablished, hnormalized, hclasses, hmethod, hlive⟩
              · cases h
            · cases h

section Sample

def areaMethod : UserFn := ⟨[], "shapes.R", none, ⟨0, 0, 0, 0⟩, 0⟩

/-- `setGeneric("area", …)` in one file and `setMethod("area", "Shape", …)` in a later one. -/
def areaFiles : List (List Registration) :=
  [[.declareGeneric "area" (.literal ["shape"] ["shape"])],
    [.registerMethod "area" (some [(none, "Shape")]) (some "__s4__area__Shape")]]

def areaLive : Table String UserFn := Finmap.insert "__s4__area__Shape" areaMethod ∅

/-- `area(shape = new("Shape"))`. -/
def areaCall : S4Call where
  head := .bare "area"
  ownPackage := none
  args := [.mk (some "shape") (.call (.ident "new" ⟨0, 0, 0, 0⟩) [] ⟨0, 0, 0, 0⟩) ⟨0, 0, 0, 0⟩]
  argTypes := [{ RType.unknown with cls := .single "Shape" }]
  instances := [true]
  coreFormals := none

end Sample

end Ry.S4
