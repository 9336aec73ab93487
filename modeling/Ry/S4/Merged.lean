import Ry.S4.Inventory

/-! # Registrations over several files

An inventory is what its registrations say about each generic (`entry_inventory`), and merging
the inventories of several files in order is registering everything in one (`merged_eq`).
-/

namespace Ry.S4

/-! ## Declarations -/

theorem mergeDecl_absent (decl : GenericDecl) : mergeDecl decl .absent = decl := by
  cases decl <;> rfl

theorem absent_mergeDecl (decl : GenericDecl) : mergeDecl .absent decl = decl := by
  cases decl <;> rfl

theorem mergeDecl_opaqueDecl (decl : GenericDecl) : mergeDecl decl .opaqueDecl = .opaqueDecl := by
  cases decl <;> rfl

theorem opaqueDecl_mergeDecl (decl : GenericDecl) : mergeDecl .opaqueDecl decl = .opaqueDecl := by
  cases decl <;> rfl

theorem mergeDecl_assoc (a b c : GenericDecl) :
    mergeDecl (mergeDecl a b) c = mergeDecl a (mergeDecl b c) := by
  cases a with
  | absent => rw [absent_mergeDecl, absent_mergeDecl]
  | opaqueDecl => rw [opaqueDecl_mergeDecl, opaqueDecl_mergeDecl, opaqueDecl_mergeDecl]
  | literal formals signature =>
    cases b with
    | absent => rw [mergeDecl_absent, absent_mergeDecl]
    | opaqueDecl => rw [mergeDecl_opaqueDecl, opaqueDecl_mergeDecl, mergeDecl_opaqueDecl]
    | literal formals' signature' =>
      cases c with
      | absent => rw [mergeDecl_absent, mergeDecl_absent]
      | opaqueDecl => rw [mergeDecl_opaqueDecl, mergeDecl_opaqueDecl, mergeDecl_opaqueDecl]
      | literal formals'' signature'' =>
        by_cases hab : GenericDecl.literal formals signature = .literal formals' signature'
        · rw [hab]
          by_cases hbc : GenericDecl.literal formals' signature' = .literal formals'' signature''
          · rw [hbc]
            simp [mergeDecl]
          · simp [mergeDecl, hbc]
        · by_cases hbc : GenericDecl.literal formals' signature' = .literal formals'' signature''
          · rw [← hbc]
            simp [mergeDecl, hab]
          · simp [mergeDecl, hab, hbc]

namespace S4Inventory

variable (x y : S4Inventory)

theorem mergeEntry_default (generic : S4Generic) : mergeEntry generic .default = generic := by
  obtain ⟨decl, methods, incomplete⟩ := generic
  simp [mergeEntry, S4Generic.default, mergeDecl_absent]

theorem lookup_append (name : String) : (x.append y).generics.lookup name =
    ((y.generics.lookup name).map (mergeEntry (x.entry name))).or (x.generics.lookup name) := by
  rw [append, Table.lookup_extend, Table.lookup_mapValues]

theorem entry_append (name : String) :
    (x.append y).entry name = mergeEntry (x.entry name) (y.entry name) := by
  unfold entry
  rw [lookup_append]
  cases hy : y.generics.lookup name with
  | none =>
    rw [Option.map_none, Option.none_or, Option.getD_none, mergeEntry_default]
  | some generic => rfl

theorem append_empty : x.append .empty = x := by
  refine S4Inventory.ext (Finmap.ext_lookup fun name => ?_) (Bool.or_false _) (Bool.or_false _)
  rw [lookup_append]
  rfl

/-- Two inventories with the same entry under `name`, written to both, still merge. -/
theorem insert_append {name : String} {entry entry' : S4Generic}
    (h : mergeEntry (x.entry name) entry = entry') :
    (x.append { y with generics := y.generics.insert name entry }).generics =
      (x.append y).generics.insert name entry' := by
  refine Finmap.ext_lookup fun name' => ?_
  rw [lookup_append, Table.lookup_insert, Table.lookup_insert, lookup_append]
  by_cases hname : name' = name
  · subst hname
    rw [if_pos rfl, if_pos rfl, Option.map_some, h]
    rfl
  · rw [if_neg hname, if_neg hname]

/-- Registering after a merge is registering in the later file. -/
theorem append_register (r : Registration) :
    x.append (y.register r) = (x.append y).register r := by
  cases r with
  | declareGeneric name decl =>
    have hentry : mergeEntry (x.entry name)
          { y.entry name with decl := mergeDecl (y.entry name).decl decl } =
        { (x.append y).entry name with
          decl := mergeDecl ((x.append y).entry name).decl decl } := by
      rw [entry_append]
      simp only [mergeEntry, mergeDecl_assoc]
    have hgenerics := insert_append x y hentry
    unfold register declareGeneric
    dsimp only
    rw [← hgenerics]
    rfl
  | registerMethod generic entries function =>
    cases entries with
    | none =>
      have hentry : mergeEntry (x.entry generic) { y.entry generic with incomplete := true } =
          { (x.append y).entry generic with incomplete := true } := by
        rw [entry_append]
        simp [mergeEntry]
      have hgenerics := insert_append x y hentry
      unfold register registerMethod
      dsimp only
      rw [← hgenerics]
      rfl
    | some entries =>
      have hentry : mergeEntry (x.entry generic)
            { y.entry generic with
              methods := (y.entry generic).methods ++ [⟨entries, function⟩] } =
          { (x.append y).entry generic with
            methods := ((x.append y).entry generic).methods ++ [⟨entries, function⟩] } := by
        rw [entry_append]
        simp only [mergeEntry, List.append_assoc]
      have hgenerics := insert_append x y hentry
      unfold register registerMethod
      dsimp only
      rw [← hgenerics]
      rfl
  | markComputedName => simp [register, markComputedName, append, entry]
  | markAllIncomplete => simp [register, markAllIncomplete, append, entry]

end S4Inventory

/-- A file's inventory merged after `s4` is its registrations made after those of `s4`. -/
theorem append_inventory (s4 : S4Inventory) (registrations : List Registration) :
    s4.append (inventory registrations) = registrations.foldl S4Inventory.register s4 := by
  induction registrations using List.reverseRecOn with
  | nil => exact s4.append_empty
  | append_singleton registrations r ih =>
    rw [List.foldl_append, ← ih]
    unfold inventory
    rw [List.foldl_append]
    exact s4.append_register _ r

/-- Merging the files' inventories in order is registering everything in one. -/
theorem merged_eq (files : List (List Registration)) : merged files = inventory files.flatten := by
  have hfrom : ∀ s4 : S4Inventory, files.foldl (fun s4 registrations =>
      s4.append (inventory registrations)) s4 = files.flatten.foldl S4Inventory.register s4 := by
    induction files with
    | nil => exact fun _ => rfl
    | cons registrations files ih =>
      intro s4
      rw [List.foldl_cons, ih, append_inventory, List.flatten_cons, List.foldl_append]
  exact hfrom .empty

/-! ## What is said about one generic -/

/-- What a registration declares a generic to be. -/
def declarationOf (name : String) : Registration → Option GenericDecl
  | .declareGeneric declared decl => if declared = name ∧ decl ≠ .absent then some decl else none
  | _ => none

/-- The method of a generic that a registration makes, if it could be interpreted. -/
def methodOf (name : String) : Registration → Option S4Method
  | .registerMethod generic (some entries) function =>
    if generic = name then some ⟨entries, function⟩ else none
  | _ => none

/-- A registration of a method for the generic whose signature could not be interpreted. -/
def isIncomplete (name : String) : Registration → Bool
  | .registerMethod generic none _ => generic == name
  | _ => false

/-- A registration that may be one for any generic. -/
def isForAny : Registration → Bool
  | .markComputedName | .markAllIncomplete => true
  | _ => false

theorem inventory_append (registrations : List Registration) (r : Registration) :
    inventory (registrations ++ [r]) = (inventory registrations).register r := by
  unfold inventory
  rw [List.foldl_append]
  rfl

theorem allIncomplete_inventory (registrations : List Registration) :
    (inventory registrations).allIncomplete = registrations.any isForAny := by
  induction registrations using List.reverseRecOn with
  | nil => rfl
  | append_singleton registrations r ih =>
    rw [inventory_append, List.any_append, ← ih]
    cases r with
    | declareGeneric | registerMethod => exact (Bool.or_false _).symm
    | markComputedName | markAllIncomplete => exact (Bool.or_true _).symm

theorem entry_insert (s4 : S4Inventory) (name name' : String) (entry : S4Generic) :
    { s4 with generics := s4.generics.insert name' entry : S4Inventory }.entry name =
      if name = name' then entry else s4.entry name := by
  unfold S4Inventory.entry
  rw [Table.lookup_insert]
  split <;> rfl

/-- An inventory keeps, for each generic, what its registrations say. -/
theorem entry_inventory (name : String) (registrations : List Registration) :
    (inventory registrations).entry name =
      ⟨(registrations.filterMap (declarationOf name)).foldl mergeDecl .absent,
        registrations.filterMap (methodOf name), registrations.any (isIncomplete name)⟩ := by
  induction registrations using List.reverseRecOn with
  | nil => rfl
  | append_singleton registrations r ih =>
    rw [inventory_append, List.filterMap_append, List.filterMap_append, List.any_append]
    cases r with
    | declareGeneric declared decl =>
      unfold S4Inventory.register S4Inventory.declareGeneric
      rw [entry_insert]
      by_cases hname : name = declared
      · subst hname
        rw [if_pos rfl, ih]
        by_cases hdecl : decl = .absent
        · subst hdecl
          simp [List.filterMap_cons, declarationOf, methodOf, isIncomplete, mergeDecl_absent]
        · simp [List.filterMap_cons, declarationOf, methodOf, isIncomplete, hdecl, List.foldl_append]
      · rw [if_neg hname, ih]
        simp [List.filterMap_cons, declarationOf, methodOf, isIncomplete, Ne.symm hname]
    | registerMethod generic entries function =>
      unfold S4Inventory.register S4Inventory.registerMethod
      rw [entry_insert]
      by_cases hname : name = generic
      · subst hname
        rw [if_pos rfl, ih]
        cases entries <;> simp [List.filterMap_cons, declarationOf, methodOf, isIncomplete]
      · rw [if_neg hname, ih]
        cases entries <;> simp [List.filterMap_cons, declarationOf, methodOf, isIncomplete, Ne.symm hname]
    | markComputedName | markAllIncomplete =>
      have hsame : ∀ r, (inventory registrations).register r = { inventory registrations with
          allIncomplete := ((inventory registrations).register r).allIncomplete
          computedName := ((inventory registrations).register r).computedName } →
          ((inventory registrations).register r).entry name =
            (inventory registrations).entry name := by
        intro r hr
        rw [hr]
        rfl
      rw [hsame _ rfl, ih]
      simp [List.filterMap_cons, declarationOf, methodOf, isIncomplete]

end Ry.S4
