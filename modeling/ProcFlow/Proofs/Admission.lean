import ProcFlow.Proofs.Flaws
/-!
# A manifest as a whole or not at all

A manifest is added to a catalog in place. First everything in it is checked, and the first thing that does
not pass ends the matter; after that types and procedures are set one by one, and nothing can fail any more.
The checks read the catalog and leave it alone, so a manifest that is refused has left no trace.

What is set has been found to be new, so it comes behind all that is there and takes nothing's place. The
checks pass on exactly the manifests whose names are new and whose procedures fit the types of catalog and
manifest together.
-/

namespace ProcFlow

/-! ### Going through a list up to the first failure -/

section Traversal

variable {α β ε : Type} {f : α → Except ε β} {l : List α}

theorem mapM_eq_error_iff {error : ε} :
    l.mapM f = .error error ↔ ∃ x, IsFirst (fun x => ¬ ∃ b, f x = .ok b) l x ∧ f x = .error error := by
  induction l with
  | nil =>
      refine ⟨fun h => ?_, fun ⟨x, h, _⟩ => absurd h not_isFirst_nil⟩
      cases h
  | cons y rest ih =>
      rw [List.mapM_cons]
      simp only [isFirst_cons]
      cases hy : f y with
      | error error' =>
          have hstop : ¬ ∃ b, Except.error error' = Except.ok (α := β) b := fun ⟨_, h⟩ => nomatch h
          refine ⟨fun h => ?_, ?_⟩
          · cases h
            exact ⟨y, Or.inl ⟨hstop, rfl⟩, hy⟩
          · rintro ⟨x, ⟨_, rfl⟩ | ⟨hok, _⟩, hx⟩
            · rw [hy] at hx
              cases hx
              rfl
            · exact absurd hstop hok
      | ok b =>
          have hgo : ∃ b', Except.ok (ε := ε) b = .ok b' := ⟨b, rfl⟩
          have hrest : (Except.ok b >>= fun b => rest.mapM f >>= fun bs => pure (b :: bs)) = .error error
              ↔ rest.mapM f = .error error := by
            cases rest.mapM f <;> simp [bind, Except.bind, pure, Except.pure]
          rw [hrest, ih]
          simp only [hgo, not_true_eq_false, false_and, false_or, not_false_eq_true, true_and]

theorem exists_mapM_eq_ok_iff : (∃ r, l.mapM f = .ok r) ↔ ∀ x ∈ l, ∃ b, f x = .ok b := by
  induction l with
  | nil => exact iff_of_true ⟨[], rfl⟩ fun x hx => absurd hx List.not_mem_nil
  | cons y rest ih =>
      rw [List.mapM_cons, List.forall_mem_cons, ← ih]
      cases f y <;> cases rest.mapM f <;> simp [bind, Except.bind, pure, Except.pure]

end Traversal

namespace Catalog

variable {c c' : Catalog} {m : Manifest} {origin : String}

/-! ### What is taken and what is refused -/

/-- A type is known if the catalog or the manifest has it. -/
def KnownWith (c : Catalog) (m : Manifest) (type : TypeId) : Prop :=
  type ∈ c.types.keys ∨ type ∈ m.types.keys

/-- A procedure can be taken if it is new and passes against the types of catalog and manifest together. -/
def Takes (c : Catalog) (m : Manifest) (x : String × ProcManifest) : Prop :=
  x.1 ∉ c.procedures.keys ∧ x.2.Passes (c.KnownWith m)

/-- A manifest can be added if all its types are new and all its procedures can be taken. -/
structure Admits (c : Catalog) (m : Manifest) : Prop where
  types : ∀ id ∈ m.types.keys, id ∉ c.types.keys
  procedures : ∀ x ∈ m.procedures.entries, c.Takes m x

/-- What is reported of a manifest that cannot be added. It is about the first type that is not new, or
else about the first procedure that cannot be taken. -/
inductive Refuses (c : Catalog) (m : Manifest) (origin : String) : Error → Prop where
  | type {id : TypeId} {first : TypeEntry} (h : IsFirst (· ∈ c.types.keys) m.types.keys id)
      (hfirst : c.types.get? id = some first) :
      Refuses c m origin (.duplicateType id first.origin origin)
  | procedure {name : String} {p : ProcManifest} {first : ProcEntry}
      (htypes : ∀ id ∈ m.types.keys, id ∉ c.types.keys)
      (h : IsFirst (fun x => ¬ c.Takes m x) m.procedures.entries (name, p))
      (hfirst : c.procedures.get? name = some first) :
      Refuses c m origin (.duplicateProcedure name first.origin origin)
  | rejected {name : String} {p : ProcManifest} {error : Error}
      (htypes : ∀ id ∈ m.types.keys, id ∉ c.types.keys)
      (h : IsFirst (fun x => ¬ c.Takes m x) m.procedures.entries (name, p))
      (hnew : name ∉ c.procedures.keys)
      (hrejected : p.Rejected (c.KnownWith m) origin name error) : Refuses c m origin error

/-- A catalog with a manifest's types and procedures, in their order, behind what was there before. -/
structure ExtendedBy (c : Catalog) (m : Manifest) (origin : String) (c' : Catalog) : Prop where
  types : c'.types.entries = c.types.entries ++ m.types.entries.map fun e => (e.1, ⟨e.2, origin⟩)
  procedures : ∃ entries, c'.procedures.entries = c.procedures.entries ++ entries ∧
    List.Forall₂ (fun p e => e.1 = p.1 ∧ p.2.Becomes e.2 ∧ e.2.origin = origin)
      m.procedures.entries entries


/-! ### Checking types -/

theorem typeClash?_eq_some_iff {error : Error} :
    c.typeClash? m origin = some error ↔ ∃ id first, IsFirst (· ∈ c.types.keys) m.types.keys id ∧
      c.types.get? id = some first ∧ .duplicateType id first.origin origin = error := by
  simp only [typeClash?, findSome?_eq_some_iff_isFirst, ne_eq, Option.map_eq_none_iff,
    Table.get?_eq_none_iff, not_not, Option.map_eq_some_iff, exists_and_left]

theorem typeClash?_eq_none_iff :
    c.typeClash? m origin = none ↔ ∀ id ∈ m.types.keys, id ∉ c.types.keys := by
  simp only [typeClash?, List.findSome?_eq_none_iff, Option.map_eq_none_iff, Table.get?_eq_none_iff]


/-! ### Checking procedures -/

theorem knownWith_eq :
    (fun type => (c.types.contains type || m.types.contains type) = true) = c.KnownWith m := by
  funext type
  rw [Bool.or_eq_true, Table.contains_iff, Table.contains_iff, KnownWith]

section Entry

variable {x : String × ProcManifest} {error : Error}

theorem checkEntry_eq_error_iff :
    c.checkEntry m origin x = .error error
      ↔ (∃ first, c.procedures.get? x.1 = some first ∧
          .duplicateProcedure x.1 first.origin origin = error) ∨
        x.1 ∉ c.procedures.keys ∧ x.2.Rejected (c.KnownWith m) origin x.1 error := by
  rw [← Table.get?_eq_none_iff, ← knownWith_eq, ← checkProcedure_eq_error_iff, checkEntry]
  cases c.procedures.get? x.1 with
  | some first => simp
  | none =>
      cases checkProcedure _ origin x.1 x.2 <;> simp [bind, Except.bind, pure, Except.pure]

theorem exists_checkEntry_iff : (∃ e, c.checkEntry m origin x = .ok e) ↔ c.Takes m x := by
  rw [Takes, ← Table.get?_eq_none_iff, ← knownWith_eq,
    ← exists_checkProcedure_iff origin x.1, checkEntry]
  cases c.procedures.get? x.1 with
  | some first => simp
  | none =>
      cases checkProcedure _ origin x.1 x.2 <;> simp [bind, Except.bind, pure, Except.pure]

end Entry

theorem checkProcedures_eq_error_iff {error : Error} :
    c.checkProcedures m origin = .error error
      ↔ ∃ x, IsFirst (fun x => ¬ c.Takes m x) m.procedures.entries x ∧
        c.checkEntry m origin x = .error error := by
  simp only [checkProcedures_eq, mapM_eq_error_iff, exists_checkEntry_iff]

theorem exists_checkProcedures_iff :
    (∃ entries, c.checkProcedures m origin = .ok entries)
      ↔ ∀ x ∈ m.procedures.entries, c.Takes m x := by
  simp only [checkProcedures_eq, exists_mapM_eq_ok_iff, exists_checkEntry_iff]


/-! ### Adding a manifest -/

/-- What adding a manifest comes to once its types and procedures have been checked. -/
theorem add_of_checks {entries : List (String × ProcEntry)} (htypes : c.typeClash? m origin = none)
    (hprocedures : c.checkProcedures m origin = .ok entries) :
    c.add m origin = .ok (⟨m.types.entries.foldl (fun t e => t.insert e.1 ⟨e.2, origin⟩) c.types,
      entries.foldl (fun t e => t.insert e.1 e.2) c.procedures⟩, entries.length) := by
  rw [add, htypes]
  simp only [hprocedures]
  rfl

theorem add_eq_error_iff_checks {error : Error} :
    c.add m origin = .error error ↔ c.typeClash? m origin = some error ∨
      c.typeClash? m origin = none ∧ c.checkProcedures m origin = .error error := by
  rw [add]
  cases c.typeClash? m origin with
  | some error' => simp
  | none => cases c.checkProcedures m origin <;> simp [bind, Except.bind, pure, Except.pure]

/-- A manifest is refused for the first thing in it that does not pass. -/
theorem add_eq_error_iff {error : Error} :
    c.add m origin = .error error ↔ c.Refuses m origin error := by
  rw [add_eq_error_iff_checks, typeClash?_eq_some_iff, typeClash?_eq_none_iff,
    checkProcedures_eq_error_iff]
  refine ⟨?_, fun h => ?_⟩
  · rintro (⟨id, first, hid, hfirst, rfl⟩ | ⟨htypes, ⟨name, p⟩, hp, herror⟩)
    · exact .type hid hfirst
    · rcases checkEntry_eq_error_iff.mp herror with ⟨first, hfirst, rfl⟩ | ⟨hnew, hrejected⟩
      · exact .procedure htypes hp hfirst
      · exact .rejected htypes hp hnew hrejected
  · cases h with
    | type hid hfirst => exact Or.inl ⟨_, _, hid, hfirst, rfl⟩
    | procedure htypes hp hfirst =>
        exact Or.inr ⟨htypes, _, hp, checkEntry_eq_error_iff.mpr (Or.inl ⟨_, hfirst, rfl⟩)⟩
    | rejected htypes hp hnew hrejected =>
        exact Or.inr ⟨htypes, _, hp, checkEntry_eq_error_iff.mpr (Or.inr ⟨hnew, hrejected⟩)⟩

/-- A manifest is added if and only if all in it is new and fits. -/
theorem exists_add_iff (origin : String) : (∃ added, c.add m origin = .ok added) ↔ c.Admits m := by
  refine ⟨fun ⟨added, hadd⟩ => ?_, fun h => ?_⟩
  · obtain ⟨entries, hcheck, _, _⟩ := add_eq_ok hadd
    refine ⟨fun id hid => ?_, exists_checkProcedures_iff.mp ⟨entries, hcheck⟩⟩
    rw [← Table.get?_eq_none_iff]
    exact get?_types_of_add hadd hid
  · obtain ⟨entries, hcheck⟩ := exists_checkProcedures_iff.mpr h.procedures
    exact ⟨_, add_of_checks (typeClash?_eq_none_iff.mpr h.types) hcheck⟩

theorem extendedBy_of_add {count : Nat} (h : c.add m origin = .ok (c', count)) :
    count = m.procedures.size ∧ c.ExtendedBy m origin c' := by
  have hadmits := (exists_add_iff origin).mp ⟨_, h⟩
  obtain ⟨entries, hcheck⟩ := exists_checkProcedures_iff.mpr hadmits.procedures
  rw [add_of_checks (typeClash?_eq_none_iff.mpr hadmits.types) hcheck] at h
  cases h
  have hentries : List.Forall₂ (fun p e => e.1 = p.1 ∧ p.2.Becomes e.2 ∧ e.2.origin = origin)
      m.procedures.entries entries := by
    rw [checkProcedures_eq] at hcheck
    refine (forall₂_of_mapM hcheck).imp fun p e hentry => ?_
    obtain ⟨_, hname, hprocedure⟩ := checkEntry_eq_ok hentry
    obtain ⟨hbecomes, horigin, _⟩ := (checkProcedure_eq_ok_iff p.1).mp hprocedure
    exact ⟨hname, hbecomes, horigin⟩
  have hnames : entries.map Prod.fst = m.procedures.keys :=
    map_fst_of_forall₂ (hentries.imp fun _ _ hentry => ⟨hentry.1, hentry.2.1⟩)
  refine ⟨hentries.length_eq.symm, ?_, entries, ?_, hentries⟩
  · have hnodup : (c.types.keys ++ m.types.keys).Nodup :=
      c.types.nodup.append m.types.nodup fun id hold hid => hadmits.types id hid hold
    exact Table.entries_foldl_insert (f := fun host => ⟨host, origin⟩) _ _ hnodup
  · have hnodup : (c.procedures.keys ++ entries.map Prod.fst).Nodup := by
      rw [hnames]
      refine c.procedures.nodup.append m.procedures.nodup fun name hold hname => ?_
      obtain ⟨x, hx, rfl⟩ := List.mem_map.mp hname
      exact (hadmits.procedures x hx).1 hold
    have hset := Table.entries_foldl_insert (f := id) entries c.procedures hnodup
    exact hset.trans (congrArg _ (List.map_id _))


/-! ### Adding in place -/

/-- What is done to a catalog in place. An error stops it, and what has been done by then stays done. -/
abbrev Action (α : Type) := ExceptT Error (StateM Catalog) α

/-- What comes of an action on a catalog, and the catalog that it leaves. -/
def Action.on {α : Type} (x : Action α) (c : Catalog) : Except Error α × Catalog :=
  Id.run (StateT.run (ExceptT.run x) c)

/-- Fails with an error, if there is one. -/
def failWith : Option Error → Except Error Unit
  | some error => .error error
  | none => .ok ()

/-- Stops if the catalog has a type already. -/
def requireNewType (origin : String) (id : TypeId) : Action Unit := do
  if let some first := (← get).types.get? id then
    throw (.duplicateType id first.origin origin)

/-- Checks a procedure against the catalog as it is by then. -/
def requireEntry (m : Manifest) (origin : String) (x : String × ProcManifest) :
    Action (String × ProcEntry) := do
  let c ← get
  liftExcept (c.checkEntry m origin x)

def setType (origin : String) (e : TypeId × String) : Action Unit :=
  modify fun c => { c with types := c.types.insert e.1 ⟨e.2, origin⟩ }

def setProcedure (e : String × ProcEntry) : Action Unit :=
  modify fun c => { c with procedures := c.procedures.insert e.1 e.2 }

/-- Adds a manifest in place and returns how many procedures have been added. -/
def load (m : Manifest) (origin : String) : Action Nat := do
  m.types.keys.forM (requireNewType origin)
  let entries ← m.procedures.entries.mapM (requireEntry m origin)
  m.types.entries.forM (setType origin)
  entries.forM setProcedure
  return entries.length

section Bind

variable {α β : Type} {x : Action α}

theorem on_bind_of_ok {a : α} (h : x.on c = (.ok a, c')) (next : α → Action β) :
    (x >>= next).on c = (next a).on c' := by
  simp only [Action.on, ExceptT.run_bind, StateT.run_bind, Id.run_bind] at h ⊢
  rw [h]

theorem on_bind_of_error {error : Error} (h : x.on c = (.error error, c')) (next : α → Action β) :
    (x >>= next).on c = (.error error, c') := by
  simp only [Action.on, ExceptT.run_bind, StateT.run_bind, Id.run_bind] at h ⊢
  rw [h]
  rfl

end Bind

/-- An action that looks at a catalog and leaves it alone. -/
def Action.Looks {α : Type} (x : Action α) (c : Catalog) (r : Except Error α) : Prop := x.on c = (r, c)

theorem Action.Looks.forM {α : Type} {check : α → Action Unit} {f : α → Option Error} {l : List α}
    (h : ∀ x ∈ l, (check x).Looks c (failWith (f x))) :
    (l.forM check).Looks c (failWith (l.findSome? f)) := by
  induction l with
  | nil => rfl
  | cons x rest ih =>
      obtain ⟨hx, hrest⟩ := List.forall_mem_cons.mp h
      rw [List.findSome?_cons]
      cases hf : f x with
      | some error =>
          rw [hf] at hx
          exact on_bind_of_error hx fun _ => rest.forM check
      | none =>
          rw [hf] at hx
          exact (on_bind_of_ok hx fun _ => rest.forM check).trans (ih hrest)

theorem Action.Looks.mapM {α β : Type} {check : α → Action β} {f : α → Except Error β} {l : List α}
    (h : ∀ x ∈ l, (check x).Looks c (f x)) : (l.mapM check).Looks c (l.mapM f) := by
  induction l with
  | nil => rfl
  | cons x rest ih =>
      obtain ⟨hx, hrest⟩ := List.forall_mem_cons.mp h
      rw [List.mapM_cons, List.mapM_cons]
      cases hf : f x with
      | error error =>
          rw [hf] at hx
          exact on_bind_of_error hx _
      | ok b =>
          rw [hf] at hx
          have hcons := on_bind_of_ok hx fun b => rest.mapM check >>= fun bs => pure (b :: bs)
          refine hcons.trans ?_
          have hgo := ih hrest
          cases hmap : rest.mapM f with
          | error error =>
              rw [hmap] at hgo
              exact on_bind_of_error hgo _
          | ok bs =>
              rw [hmap] at hgo
              exact on_bind_of_ok hgo _

theorem requireNewType_looks (id : TypeId) :
    (requireNewType origin id).Looks c
      (failWith ((c.types.get? id).map fun first => .duplicateType id first.origin origin)) := by
  have hget : (get : Action Catalog).on c = (.ok c, c) := rfl
  rw [Action.Looks, requireNewType, on_bind_of_ok hget]
  cases c.types.get? id <;> rfl

theorem requireEntry_looks (x : String × ProcManifest) :
    (requireEntry m origin x).Looks c (c.checkEntry m origin x) := by
  have hget : (get : Action Catalog).on c = (.ok c, c) := rfl
  rw [Action.Looks, requireEntry, on_bind_of_ok hget]
  cases c.checkEntry m origin x <;> rfl

/-! Nothing fails any more once setting has begun. -/

theorem on_forM_of_ok {α : Type} {set : α → Action Unit} {f : Catalog → α → Catalog}
    (h : ∀ x c, (set x).on c = (.ok (), f c x)) (l : List α) (c : Catalog) :
    (l.forM set).on c = (.ok (), l.foldl f c) := by
  induction l generalizing c with
  | nil => rfl
  | cons x rest ih => exact (on_bind_of_ok (h x c) fun _ => rest.forM set).trans (ih (f c x))

theorem on_setTypes (l : List (TypeId × String)) (c : Catalog) :
    (l.forM (setType origin)).on c
      = (.ok (), { c with types := l.foldl (fun t e => t.insert e.1 ⟨e.2, origin⟩) c.types }) :=
  (on_forM_of_ok (fun _ _ => rfl) l c).trans
    (congrArg _ (List.foldl_hom (fun types => { c with types }) fun _ _ => rfl))

theorem on_setProcedures (l : List (String × ProcEntry)) (c : Catalog) :
    (l.forM setProcedure).on c
      = (.ok (), { c with procedures := l.foldl (fun t e => t.insert e.1 e.2) c.procedures }) :=
  (on_forM_of_ok (fun _ _ => rfl) l c).trans
    (congrArg _ (List.foldl_hom (fun procedures => { c with procedures }) fun _ _ => rfl))

/-- Adding in place comes to what adding comes to, and leaves the catalog as it was if it fails. -/
theorem on_load : (load m origin).on c = ((c.add m origin).map Prod.snd, c.after (.add m origin)) := by
  have htypes : (m.types.keys.forM (requireNewType origin)).Looks c
      (failWith (c.typeClash? m origin)) := .forM fun id _ => requireNewType_looks id
  have hprocedures : (m.procedures.entries.mapM (requireEntry m origin)).Looks c
      (c.checkProcedures m origin) := .mapM fun x _ => requireEntry_looks x
  rw [after, Call.result, load]
  cases hclash : c.typeClash? m origin with
  | some error =>
      rw [hclash] at htypes
      rw [add_eq_error_iff_checks.mpr (Or.inl hclash)]
      exact on_bind_of_error htypes _
  | none =>
      rw [hclash] at htypes
      rw [on_bind_of_ok htypes]
      cases hcheck : c.checkProcedures m origin with
      | error error =>
          rw [hcheck] at hprocedures
          rw [add_eq_error_iff_checks.mpr (Or.inr ⟨hclash, hcheck⟩)]
          exact on_bind_of_error hprocedures _
      | ok entries =>
          rw [hcheck] at hprocedures
          rw [on_bind_of_ok hprocedures, on_bind_of_ok (on_setTypes _ _),
            on_bind_of_ok (on_setProcedures _ _), add_of_checks hclash hcheck]
          rfl

theorem on_load_eq_error_iff {error : Error} :
    (load m origin).on c = (.error error, c') ↔ c' = c ∧ c.Refuses m origin error := by
  rw [on_load, ← add_eq_error_iff, after, Call.result]
  cases c.add m origin with
  | error error' => simp [Except.map, eq_comm, and_comm]
  | ok added => simp [Except.map]

theorem on_load_eq_ok_iff {count : Nat} :
    (load m origin).on c = (.ok count, c') ↔ c.add m origin = .ok (c', count) := by
  rw [on_load, after, Call.result]
  cases c.add m origin with
  | error error => simp [Except.map]
  | ok added => simp [Except.map, Prod.ext_iff, and_comm]

/-- A manifest is added as a whole or not at all. If adding it in place fails, then the catalog is as it
was, and what is reported is the first thing that does not pass; if not, then the procedures of the manifest
are counted, and its types and procedures come in their order behind everything that was there, which stays.
It fails unless all names of the manifest are new and all its procedures pass against the types of both. -/
theorem load_all_or_nothing (c : Catalog) (m : Manifest) (origin : String) :
    (∀ error c', (load m origin).on c = (.error error, c') ↔ c' = c ∧ c.Refuses m origin error) ∧
      (∀ count c', (load m origin).on c = (.ok count, c') →
        count = m.procedures.size ∧ c.ExtendedBy m origin c') ∧
      ((∃ count c', (load m origin).on c = (.ok count, c')) ↔ c.Admits m) ∧
      (load m origin).on c = ((c.add m origin).map Prod.snd, c.after (.add m origin)) := by
  refine ⟨fun error c' => on_load_eq_error_iff, fun count c' h => ?_, ?_, on_load⟩
  · exact extendedBy_of_add (on_load_eq_ok_iff.mp h)
  · simp only [on_load_eq_ok_iff, ← exists_add_iff origin, Prod.exists]
    exact exists_comm

/-- A type and a procedure that are in order, and behind them a procedure of an unknown type. -/
def spoiltManifest : Manifest where
  types := .ofList [("noise", "string")]
  procedures := .ofList
    [("hush", ⟨⟨[⟨"n", "noise"⟩], [⟨"result", []⟩]⟩, "@result(\x7b\x7d)"⟩),
      ("smell", ⟨⟨[⟨"x", "odour"⟩], [⟨"result", []⟩]⟩, "@result(\x7b\x7d)"⟩)]

/-- Flags go into the standard catalog, and nothing of the spoilt manifest does. -/
theorem load_flagManifest_and_spoiltManifest :
    (∃ c', (load flagManifest "flags.json").on standard = (.ok 1, c') ∧
        standard.ExtendedBy flagManifest "flags.json" c') ∧
      (load spoiltManifest "spoilt.json").on standard
        = (.error (.invalidProcedure "spoilt.json" "smell" (.unknownType "odour")), standard) ∧
      standard.Refuses spoiltManifest "spoilt.json"
        (.invalidProcedure "spoilt.json" "smell" (.unknownType "odour")) := by
  obtain ⟨herror, _⟩ := load_all_or_nothing standard spoiltManifest "spoilt.json"
  obtain ⟨_, hok, _⟩ := load_all_or_nothing standard flagManifest "flags.json"
  obtain ⟨c', count, hadd⟩ := exists_add_flagManifest
  have hflags := on_load_eq_ok_iff.mpr hadd
  obtain ⟨rfl, hextended⟩ := hok count c' hflags
  have hspoilt : standard.add spoiltManifest "spoilt.json"
      = .error (.invalidProcedure "spoilt.json" "smell" (.unknownType "odour")) := by decide +kernel
  have hrefuses := add_eq_error_iff.mp hspoilt
  exact ⟨⟨c', hflags, hextended⟩, (herror _ _).mpr ⟨rfl, hrefuses⟩, hrefuses⟩

end Catalog

end ProcFlow
