/-!
# Ordered tables

A table maps names to values and remembers the order in which the names first came. Setting a name
that is already present replaces its value in place; removing a name closes the gap. The entries are
the whole state, and no name occurs twice among them.
-/

namespace ProcFlow

/-- A finite map from names to values, in order of first insertion. -/
structure Table (α : Type) where
  entries : List (String × α)
  nodup : (entries.map Prod.fst).Nodup

namespace Table

variable {α β : Type}

@[ext] theorem ext {s t : Table α} (h : s.entries = t.entries) : s = t := by
  cases s; cases t; cases h; rfl

instance [DecidableEq α] : DecidableEq (Table α) := fun s t =>
  decidable_of_iff (s.entries = t.entries) ⟨ext, fun h => h ▸ rfl⟩

def empty : Table α := ⟨[], List.nodup_nil⟩

instance : Inhabited (Table α) := ⟨empty⟩

def keys (t : Table α) : List String := t.entries.map Prod.fst

def values (t : Table α) : List α := t.entries.map Prod.snd

def size (t : Table α) : Nat := t.entries.length

def isEmpty (t : Table α) : Bool := t.entries.isEmpty

def get? (t : Table α) (key : String) : Option α := t.entries.lookup key

def contains (t : Table α) (key : String) : Bool := (t.get? key).isSome


/-! ### Setting a name -/

/-- Replaces the value of `key` where it stands, or adds the entry at the end. -/
def put (key : String) (value : α) : List (String × α) → List (String × α)
  | [] => [(key, value)]
  | (k, v) :: rest => if k = key then (k, value) :: rest else (k, v) :: put key value rest

theorem keys_put (key : String) (value : α) (l : List (String × α)) :
    (put key value l).map Prod.fst
      = if key ∈ l.map Prod.fst then l.map Prod.fst else l.map Prod.fst ++ [key] := by
  induction l with
  | nil => rfl
  | cons e rest ih =>
    obtain ⟨k, v⟩ := e
    by_cases h : k = key
    · simp [put, h]
    · have h' : key ≠ k := fun e => h e.symm
      rw [put, if_neg h, List.map_cons, ih]
      by_cases hm : key ∈ rest.map Prod.fst <;> simp only [List.map_cons, List.mem_cons, h', hm,
        or_true, or_false, if_true, if_false, List.cons_append]

theorem nodup_put (key : String) (value : α) {l : List (String × α)}
    (h : (l.map Prod.fst).Nodup) : ((put key value l).map Prod.fst).Nodup := by
  rw [keys_put]
  split
  · exact h
  · next hm =>
    rw [List.nodup_append]
    exact ⟨h, by simp, fun a ha b hb => by simp at hb; subst hb; exact fun e => hm (e ▸ ha)⟩

/-- Sets a name: in place if it is present, at the end otherwise. -/
def insert (t : Table α) (key : String) (value : α) : Table α :=
  ⟨put key value t.entries, nodup_put key value t.nodup⟩

theorem keys_insert (t : Table α) (key : String) (value : α) :
    (t.insert key value).keys = if key ∈ t.keys then t.keys else t.keys ++ [key] :=
  keys_put key value t.entries

theorem lookup_put (key : String) (value : α) (l : List (String × α)) (k : String) :
    (put key value l).lookup k = if k = key then some value else l.lookup k := by
  induction l with
  | nil =>
    by_cases h : k = key
    · simp [put, h]
    · have hb : (k == key) = false := by simp [h]
      simp [put, List.lookup_cons, h, hb]
  | cons e rest ih =>
    obtain ⟨k', v⟩ := e
    by_cases h' : k' = key
    · subst h'
      by_cases h : k = k'
      · simp [put, h]
      · have hb : (k == k') = false := by simp [h]
        simp [put, List.lookup_cons, h, hb]
    · by_cases h : k = k'
      · subst h
        simp [put, h']
      · have hb : (k == k') = false := by simp [h]
        simp only [put, h', if_false, List.lookup_cons, hb, ih]

theorem get?_insert (t : Table α) (key : String) (value : α) (k : String) :
    (t.insert key value).get? k = if k = key then some value else t.get? k :=
  lookup_put key value t.entries k

/-- The table of a list of entries; a repeated name keeps its place and takes the later value. -/
def ofList (l : List (String × α)) : Table α :=
  l.foldl (fun t e => t.insert e.1 e.2) empty


/-! ### Removing a name, changing values -/

/-- Removes a name; the order of the rest stays. -/
def erase (t : Table α) (key : String) : Table α :=
  ⟨t.entries.filter (fun e => e.1 ≠ key),
    (List.Sublist.map Prod.fst List.filter_sublist).nodup t.nodup⟩

def mapValues (f : α → β) (t : Table α) : Table β :=
  ⟨t.entries.map (fun e => (e.1, f e.2)), by
    have h : (t.entries.map (fun e => (e.1, f e.2))).map Prod.fst = t.entries.map Prod.fst := by
      simp
    rw [h]
    exact t.nodup⟩

end Table

end ProcFlow
