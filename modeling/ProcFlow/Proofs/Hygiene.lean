import ProcFlow.Proofs.Naming
import ProcFlow.Proofs.Placeholder
/-!
# Names that keep apart

The code of a graph binds parameters, the continuations and temporaries. A parameter is named after its
input and may be named anything, so it is the parameters that have to keep clear of the rest. What the
generator makes up starts with two underscores that no digit follows. No parameter does: of the leading
underscores of a name one is left at most, and where that one is all of the name, only a number can follow.

Among themselves parameters keep apart by their numbers. With one more number to try than there are names
taken, one of them is always free, so the search for it cannot fail.
-/

namespace ProcFlow.Code

/-! ### Identifiers -/

/-- A letter, an underscore or a dollar sign, and then any of these and digits. -/
inductive IsIdentifier : String → Prop where
  | mk {first : Char} {rest : List Char} (hfirst : first.isAlpha ∨ first = '_' ∨ first = '$')
      (hrest : ∀ c ∈ rest, c.isAlpha ∨ c.isDigit ∨ c = '_' ∨ c = '$') :
      IsIdentifier (String.ofList (first :: rest))

theorem isIdentChar_iff {c : Char} :
    isIdentChar c ↔ c.isAlpha ∨ c.isDigit ∨ c = '_' ∨ c = '$' := by
  simp [isIdentChar, Char.isAlphanum, or_assoc]

theorem isPlainName_iff {name : String} :
    isPlainName name
      ↔ ∃ first rest, name.toList = first :: rest ∧ first.isDigit = false ∧
        ∀ c ∈ first :: rest, isIdentChar c := by
  rw [isPlainName]
  generalize name.toList = cs
  cases cs with
  | nil => simp
  | cons first rest => simp [startsWithDigit]

theorem isIdentifier_of_isPlainName {name : String} (h : isPlainName name) : IsIdentifier name := by
  obtain ⟨first, rest, hname, hdigit, hchars⟩ := isPlainName_iff.mp h
  rw [← String.ofList_toList (s := name), hname]
  refine .mk ?_ fun c hc => isIdentChar_iff.mp (hchars c (List.mem_cons_of_mem first hc))
  have hfirst := isIdentChar_iff.mp (hchars first List.mem_cons_self)
  rw [hdigit] at hfirst
  simpa using hfirst

theorem isPlainName_append {a b : String} (ha : isPlainName a) (hb : ∀ c ∈ b.toList, isIdentChar c) :
    isPlainName (a ++ b) := by
  obtain ⟨first, rest, hname, hdigit, hchars⟩ := isPlainName_iff.mp ha
  refine isPlainName_iff.mpr ⟨first, rest ++ b.toList, ?_, hdigit, ?_⟩
  · rw [String.toList_append, hname, List.cons_append]
  · intro c hc
    rw [← List.cons_append, List.mem_append] at hc
    exact hc.elim (hchars c) (hb c)

theorem isIdentChar_of_mem_underscore : ∀ c ∈ "_".toList, isIdentChar c := by
  simp [isIdentChar]

theorem isIdentChar_of_mem_repr {n : Nat} {c : Char} (hc : c ∈ n.repr.toList) : isIdentChar c :=
  isIdentChar_iff.mpr (Or.inr (Or.inl (isDigit_of_mem_repr hc)))


/-! ### Words that are taken from the start -/

theorem underscore_not_mem_of_mem : ∀ word ∈ reservedWords ++ hostGlobals, '_' ∉ word.toList := by
  decide

theorem not_mem_of_underscore {name : String} (h : '_' ∈ name.toList) :
    name ∉ reservedWords ∧ name ∉ hostGlobals := by
  rw [← not_or, ← List.mem_append]
  exact fun hmem => underscore_not_mem_of_mem name hmem h

/-- Two underscores in front and no digit behind them, as in the names that the generator makes up. -/
def IsOwn (name : String) : Prop :=
  ∃ next rest, next.isDigit = false ∧ name.toList = '_' :: '_' :: next :: rest

theorem IsOwn.underscore_mem {name : String} (h : IsOwn name) : '_' ∈ name.toList := by
  obtain ⟨next, rest, _, hname⟩ := h
  rw [hname]
  exact List.mem_cons_self

theorem continuations_toList : "__k".toList = '_' :: '_' :: 'k' :: [] := by decide

theorem isOwn_continuations : IsOwn "__k" := ⟨'k', [], by decide, continuations_toList⟩

namespace IsTemporary

variable {node : ProcId} {name : String} (h : IsTemporary node name)

include h

theorem exists_toList : ∃ rest, name.toList = '_' :: '_' :: 'n' :: rest := by
  cases h with
  | outcome => exact ⟨_, toList_nodeVar node⟩
  | flow flow => exact ⟨_, toList_flowVar node flow⟩

theorem isOwn : IsOwn name := by
  obtain ⟨rest, hname⟩ := h.exists_toList
  exact ⟨'n', rest, by decide, hname⟩

theorem isPlainName : isPlainName name := by
  have hnode : Code.isPlainName (nodeVar node) :=
    isPlainName_append (by decide) fun c hc => isIdentChar_of_mem_repr hc
  cases h with
  | outcome => exact hnode
  | flow flow =>
      refine isPlainName_append (isPlainName_append hnode isIdentChar_of_mem_underscore) fun c hc => ?_
      rw [flowSuffix, String.toList_ofList, List.mem_map] at hc
      obtain ⟨x, _, rfl⟩ := hc
      split
      next hx => simpa [isIdentChar] using Or.inl (by simpa using hx)
      · decide

end IsTemporary


/-! ### The name that an input asks for -/

/-- What is made of a name before reserved words are looked at is plain. -/
theorem exists_identifier_eq (name : String) :
    ∃ ident, isPlainName ident ∧
      identifier name = if ident ∈ reservedWords then ident ++ "_" else ident := by
  have hmap : ∀ c ∈ name.toList.map (fun c => if isIdentChar c then c else '_'), isIdentChar c := by
    intro c hc
    obtain ⟨x, _, rfl⟩ := List.mem_map.mp hc
    split
    · assumption
    · decide
  refine ⟨_, ?_, rfl⟩
  generalize name.toList.map (fun c => if isIdentChar c then c else '_') = cs at hmap
  rw [isPlainName_iff, String.toList_ofList]
  split
  · refine ⟨'_', cs, rfl, by decide, fun c hc => ?_⟩
    obtain rfl | hc := List.mem_cons.mp hc
    · decide
    · exact hmap c hc
  next hstart =>
    cases cs with
    | nil => exact absurd rfl hstart
    | cons first rest =>
        exact ⟨first, rest, rfl, by simpa [startsWithDigit] using hstart, hmap⟩

theorem isPlainName_identifier (name : String) : isPlainName (identifier name) := by
  obtain ⟨ident, hplain, heq⟩ := exists_identifier_eq name
  rw [heq]
  split
  · exact isPlainName_append hplain isIdentChar_of_mem_underscore
  · exact hplain

theorem identifier_not_mem_reservedWords (name : String) : identifier name ∉ reservedWords := by
  obtain ⟨ident, _, heq⟩ := exists_identifier_eq name
  rw [heq]
  split
  · refine (not_mem_of_underscore ?_).1
    rw [String.toList_append]
    exact List.mem_append_right _ (by decide)
  · assumption

theorem trimUnderscores_ne (cs rest : List Char) : trimUnderscores cs ≠ '_' :: '_' :: rest := by
  intro heq
  unfold trimUnderscores at heq
  split at heq
  next cs' =>
    have hdrop : cs'.dropWhile (· = '_') = '_' :: rest := (List.cons.inj heq).2
    have hhead := List.head?_dropWhile_not (fun c => decide (c = '_')) cs'
    rw [hdrop] at hhead
    simp at hhead
  next hcs => exact hcs _ heq

section BaseName

variable (key : String) (decl : InputDecl)

theorem toList_baseName :
    (baseName key decl).toList = trimUnderscores (identifier (decl.names.headD key)).toList :=
  String.toList_ofList

theorem isPlainName_baseName : isPlainName (baseName key decl) := by
  obtain ⟨first, rest, hname, hdigit, hchars⟩ :=
    isPlainName_iff.mp (isPlainName_identifier (decl.names.headD key))
  rw [isPlainName_iff, toList_baseName, hname]
  unfold trimUnderscores
  split
  next cs' heq =>
    obtain ⟨rfl, rfl⟩ := List.cons.inj heq
    refine ⟨_, _, rfl, hdigit, fun c hc => hchars c ?_⟩
    exact (List.Sublist.cons_cons _ (List.dropWhile_sublist _)).mem hc
  · exact ⟨first, rest, rfl, hdigit, hchars⟩

theorem baseName_not_mem_reservedWords : baseName key decl ∉ reservedWords := by
  by_cases hunderscore : '_' ∈ (baseName key decl).toList
  · exact (not_mem_of_underscore hunderscore).1
  · -- Nothing has been cut off in front, so the name is the identifier itself.
    have hsame : baseName key decl = identifier (decl.names.headD key) := by
      rw [toList_baseName] at hunderscore
      rw [baseName]
      unfold trimUnderscores at hunderscore ⊢
      split
      next heq =>
        rw [heq] at hunderscore
        exact absurd List.mem_cons_self hunderscore
      · exact String.ofList_toList
    rw [hsame]
    exact identifier_not_mem_reservedWords _

theorem toList_baseName_ne (rest : List Char) : (baseName key decl).toList ≠ '_' :: '_' :: rest := by
  rw [toList_baseName]
  exact trimUnderscores_ne _ rest

end BaseName


/-! ### The first free number -/

theorem toList_numbered (base : String) (n : Nat) :
    (numbered base n).toList = base.toList ++ '_' :: Nat.toDigits 10 n := by
  rw [numbered, String.toList_append, String.toList_append, Nat.toList_repr, List.append_assoc]
  rfl

theorem numbered_injective (base : String) : Function.Injective (numbered base) := by
  intro n n' heq
  have hlist := congrArg String.toList heq
  rw [toList_numbered, toList_numbered] at hlist
  exact toDigits_injective (List.cons.inj (List.append_cancel_left hlist)).2

/-- What a name becomes in the presence of names that are taken: it stays as it is if it is free, and gets
the least number from two on that makes it free if it is not. -/
inductive Settles (taken : List String) (base : String) : String → Prop where
  | free (hfree : base ∉ taken) : Settles taken base base
  | suffixed {n : Nat} (htaken : base ∈ taken) (hn : 2 ≤ n) (hfree : numbered base n ∉ taken)
      (hleast : ∀ m, 2 ≤ m → m < n → numbered base m ∈ taken) : Settles taken base (numbered base n)

theorem Settles.not_mem {taken : List String} {base name : String} (h : Settles taken base name) :
    name ∉ taken := by
  cases h with
  | free hfree => exact hfree
  | suffixed _ _ hfree _ => exact hfree

theorem Settles.congr {taken taken' : List String} {base name : String} (h : Settles taken base name)
    (hsame : ∀ x, x ∈ taken' ↔ x ∈ taken) : Settles taken' base name := by
  cases h with
  | free hfree => exact .free (mt (hsame base).mp hfree)
  | suffixed htaken hn hfree hleast =>
      exact .suffixed ((hsame base).mpr htaken) hn (mt (hsame _).mp hfree)
        fun m hm hlt => (hsame _).mpr (hleast m hm hlt)

/-- More numbers than there are names: one of them is free. -/
theorem exists_numbered_not_mem (used : List String) (base : String) :
    ∃ i < used.length + 1, numbered base (i + 2) ∉ used := by
  by_contra hnone
  push Not at hnone
  have hnodup : ((List.range (used.length + 1)).map fun i => numbered base (i + 2)).Nodup := by
    refine List.nodup_range.map fun i j heq => ?_
    have := numbered_injective base heq
    omega
  have hsubset : (List.range (used.length + 1)).map (fun i => numbered base (i + 2)) ⊆ used := by
    intro name hname
    obtain ⟨i, hi, rfl⟩ := List.mem_map.mp hname
    exact hnone i (List.mem_range.mp hi)
  have hlength := (hnodup.subperm hsubset).length_le
  rw [List.length_map, List.length_range] at hlength
  omega

theorem freshName_settles (used : List String) (base : String) :
    Settles used base (freshName used base) := by
  by_cases hbase : base ∈ used
  · simp only [freshName, hbase, not_true_eq_false, if_false, List.find?_map]
    cases hfind : (List.range (used.length + 1)).find?
        ((fun name => decide (name ∉ used)) ∘ fun i => numbered base (i + 2)) with
    | none =>
        obtain ⟨i, hi, hfree⟩ := exists_numbered_not_mem used base
        have hall := List.find?_range_eq_none.mp hfind i hi
        simp [hfree] at hall
    | some i =>
        obtain ⟨hfree, _, hleast⟩ := List.find?_range_eq_some.mp hfind
        refine .suffixed hbase (by omega) (by simpa using hfree) fun m hm hlt => ?_
        have hearlier := hleast (m - 2) (by omega)
        rw [Function.comp_apply, Nat.sub_add_cancel hm] at hearlier
        simpa using hearlier
  · rw [freshName, if_pos hbase]
    exact .free hbase


/-! ### Parameters -/

theorem Settles.isPlainName {taken : List String} {base name : String} (h : Settles taken base name)
    (hbase : isPlainName base) : Code.isPlainName name := by
  cases h with
  | free _ => exact hbase
  | suffixed _ _ _ _ =>
      exact isPlainName_append (isPlainName_append hbase isIdentChar_of_mem_underscore)
        fun c hc => isIdentChar_of_mem_repr hc

theorem Settles.not_mem_reservedWords {taken : List String} {base name : String}
    (h : Settles taken base name) (hbase : base ∉ reservedWords) : name ∉ reservedWords := by
  cases h with
  | free _ => exact hbase
  | suffixed _ _ _ _ =>
      refine (not_mem_of_underscore ?_).1
      rw [toList_numbered]
      exact List.mem_append_right _ List.mem_cons_self

theorem Settles.not_isOwn {taken : List String} {base name : String} (h : Settles taken base name)
    (hbase : ∀ rest, base.toList ≠ '_' :: '_' :: rest) (hplain : Code.isPlainName base) :
    ¬ IsOwn name := by
  rintro ⟨next, rest, hnext, hname⟩
  cases h with
  | free _ => exact hbase _ hname
  | @suffixed n _ _ _ _ =>
      obtain ⟨first, others, hfirst, _, _⟩ := isPlainName_iff.mp hplain
      rw [toList_numbered, hfirst] at hname
      obtain ⟨hunderscore, hname⟩ := List.cons.inj hname
      cases others with
      | nil =>
          -- The base is a lone underscore, so what comes after the second one is the number.
          have hmem : next ∈ Nat.toDigits 10 n := by
            rw [(List.cons.inj hname).2]
            exact List.mem_cons_self
          have hdigit := Nat.isDigit_of_mem_toDigits (by decide) (by decide) hmem
          rw [hnext] at hdigit
          cases hdigit
      | cons second others =>
          refine hbase others ?_
          rw [hfirst, hunderscore, (List.cons.inj hname).1]

/-- Each input is named in the presence of the names of the inputs before it. -/
theorem nameInputs_settles {used : List String} {inputs : List (String × InputDecl)} {i : Nat}
    {key : String} {decl : InputDecl} (h : inputs[i]? = some (key, decl)) :
    ∃ name, (nameInputs used inputs)[i]? = some (key, name) ∧
      Settles (used ++ ((nameInputs used inputs).take i).map Prod.snd) (baseName key decl) name := by
  induction inputs generalizing used i with
  | nil => simp at h
  | cons e rest ih =>
      obtain ⟨key', decl'⟩ := e
      cases i with
      | zero =>
          obtain ⟨rfl, rfl⟩ : key' = key ∧ decl' = decl := by simpa using h
          refine ⟨_, rfl, ?_⟩
          simpa using freshName_settles used (baseName key' decl')
      | succ i =>
          obtain ⟨name, hname, hsettles⟩ := @ih (freshName used (baseName key' decl') :: used) i h
          refine ⟨name, hname, hsettles.congr fun x => ?_⟩
          simp [nameInputs, or_left_comm]

theorem exists_settles_of_mem_nameInputs {used : List String} {inputs : List (String × InputDecl)}
    {name : String} (h : name ∈ (nameInputs used inputs).map Prod.snd) :
    ∃ taken key decl, used ⊆ taken ∧ Settles taken (baseName key decl) name := by
  induction inputs generalizing used with
  | nil => simp [nameInputs] at h
  | cons e rest ih =>
      rw [nameInputs, List.map_cons, List.mem_cons] at h
      cases h with
      | inl heq =>
          refine ⟨used, e.1, e.2, List.Subset.refl used, ?_⟩
          rw [heq]
          exact freshName_settles used _
      | inr hmem =>
          obtain ⟨taken, key, decl, hused, hsettles⟩ := ih hmem
          exact ⟨taken, key, decl, (List.cons_subset.mp hused).2, hsettles⟩

/-- What the name of a parameter is like, whatever its input is called. -/
structure IsParameter (name : String) : Prop where
  plain : isPlainName name
  unreserved : name ∉ reservedWords
  noGlobal : name ∉ hostGlobals
  notOwn : ¬ IsOwn name

theorem IsParameter.of_mem {g : Graph} {name : String}
    (h : name ∈ (parameterNames g).map Prod.snd) : IsParameter name := by
  obtain ⟨taken, key, decl, hglobals, hsettles⟩ := exists_settles_of_mem_nameInputs h
  have hplain := isPlainName_baseName key decl
  exact {
    plain := hsettles.isPlainName hplain
    unreserved := hsettles.not_mem_reservedWords (baseName_not_mem_reservedWords key decl)
    noGlobal := fun hmem => hsettles.not_mem (hglobals hmem)
    notOwn := hsettles.not_isOwn (toList_baseName_ne key decl) hplain }

theorem nodup_nameInputs (used : List String) (inputs : List (String × InputDecl)) :
    ((nameInputs used inputs).map Prod.snd).Nodup := by
  induction inputs generalizing used with
  | nil => exact List.nodup_nil
  | cons e rest ih =>
      rw [nameInputs, List.map_cons, List.nodup_cons]
      refine ⟨fun hmem => ?_, ih _⟩
      obtain ⟨taken, _, _, hused, hsettles⟩ := exists_settles_of_mem_nameInputs hmem
      exact hsettles.not_mem (hused List.mem_cons_self)


/-! ### All names of a graph -/

/-- The temporaries for the flows of a node, if it has a definition. -/
def flowVars (c : Context) (id : ProcId) : List String :=
  match c.definition? id with
  | none => []
  | some d => d.flowNames.map (flowVar id)

/-- The names that code of a graph can bind: the parameters, the continuations, and the temporaries of
each node. -/
def boundNames (c : Context) : List String :=
  (parameterNames c.graph).map Prod.snd
    ++ "__k" :: (c.graph.procIds.map nodeVar ++ c.graph.procIds.flatMap (flowVars c))

theorem exists_eq_flowVar {c : Context} {id : ProcId} {name : String}
    (h : name ∈ flowVars c id) : ∃ flow, name = flowVar id flow := by
  unfold flowVars at h
  split at h
  · exact absurd h List.not_mem_nil
  · obtain ⟨flow, _, rfl⟩ := List.mem_map.mp h
    exact ⟨flow, rfl⟩

theorem exists_isTemporary {c : Context} {name : String}
    (h : name ∈ c.graph.procIds.map nodeVar ++ c.graph.procIds.flatMap (flowVars c)) :
    ∃ id, IsTemporary id name := by
  rw [List.mem_append, List.mem_map, List.mem_flatMap] at h
  obtain ⟨id, _, rfl⟩ | ⟨id, _, hmem⟩ := h
  · exact ⟨id, .outcome⟩
  · obtain ⟨flow, rfl⟩ := exists_eq_flowVar hmem
    exact ⟨id, .flow flow⟩

theorem nodup_flowVars {c : Context} {id : ProcId}
    (h : ∀ d, c.definition? id = some d → (d.flowNames.map flowSuffix).Nodup) :
    (flowVars c id).Nodup := by
  unfold flowVars
  split
  · exact List.nodup_nil
  next d hd =>
    have hinjective : Function.Injective fun suffix => nodeVar id ++ "_" ++ suffix :=
      fun _ _ heq => (String.append_right_inj _).mp heq
    have hnodup := (h d hd).map hinjective
    rwa [List.map_map] at hnodup

theorem nodeVar_ne_flowVar (node node' : ProcId) (flow : String) : nodeVar node ≠ flowVar node' flow := by
  intro heq
  have hnode : IsTemporary node (flowVar node' flow) := heq ▸ .outcome
  obtain rfl := hnode.unique (.flow flow)
  have hlist := congrArg String.toList heq
  rw [toList_nodeVar, toList_flowVar, ← List.append_assoc] at hlist
  exact List.cons_ne_nil _ _ (List.self_eq_append_right.mp hlist)

theorem nodup_temporaries {c : Context}
    (h : ∀ id d, c.definition? id = some d → (d.flowNames.map flowSuffix).Nodup) :
    (c.graph.procIds.map nodeVar ++ c.graph.procIds.flatMap (flowVars c)).Nodup := by
  rw [List.nodup_append, List.nodup_flatMap]
  refine ⟨?_, ⟨fun id _ => nodup_flowVars (h id), ?_⟩, ?_⟩
  · refine c.graph.nodup_procIds.map fun node node' heq => ?_
    have hnode : IsTemporary node (nodeVar node') := heq ▸ .outcome
    exact hnode.unique .outcome
  · -- What two nodes have in common belongs to both, and so they are one.
    refine c.graph.nodup_procIds.imp fun {node node'} hne name hmem hmem' => hne ?_
    obtain ⟨flow, rfl⟩ := exists_eq_flowVar hmem
    obtain ⟨flow', heq⟩ := exists_eq_flowVar hmem'
    have hnode' : IsTemporary node' (flowVar node flow) := heq ▸ .flow flow'
    exact (IsTemporary.flow flow).unique hnode'
  · rintro _ hnode _ hflow rfl
    obtain ⟨node, _, rfl⟩ := List.mem_map.mp hnode
    obtain ⟨node', _, hflow⟩ := List.mem_flatMap.mp hflow
    obtain ⟨flow, heq⟩ := exists_eq_flowVar hflow
    exact nodeVar_ne_flowVar node node' flow heq

theorem IsTemporary.ne_of_toList {node : ProcId} {name other : String} (h : IsTemporary node name)
    {next : Char} {rest : List Char} (hother : other.toList = '_' :: '_' :: next :: rest)
    (hnext : next ≠ 'n') : name ≠ other := by
  rintro rfl
  obtain ⟨_, hname⟩ := h.exists_toList
  rw [hname] at hother
  simp only [List.cons.injEq] at hother
  exact hnext hother.2.2.1.symm

/-- The names are all different, if the flows of each node have different suffixes. -/
theorem nodup_boundNames {c : Context}
    (h : ∀ id d, c.definition? id = some d → (d.flowNames.map flowSuffix).Nodup) :
    (boundNames c).Nodup := by
  rw [boundNames, List.nodup_append, List.nodup_cons]
  refine ⟨nodup_nameInputs _ _, ⟨?_, nodup_temporaries h⟩, ?_⟩
  · intro hmem
    obtain ⟨id, htemporary⟩ := exists_isTemporary hmem
    exact htemporary.ne_of_toList continuations_toList (by decide) rfl
  · rintro name hparameter _ hown rfl
    refine (IsParameter.of_mem hparameter).notOwn ?_
    cases List.mem_cons.mp hown with
    | inl heq =>
        rw [heq]
        exact isOwn_continuations
    | inr hmem =>
        obtain ⟨id, htemporary⟩ := exists_isTemporary hmem
        exact htemporary.isOwn

/-- A name that can be bound: an identifier that is no word of the language, hides no global and is not
taken for the text that stands for what cannot be resolved. -/
structure Bindable (placeholder name : String) : Prop where
  identifier : IsIdentifier name
  unreserved : name ∉ reservedWords
  noGlobal : name ∉ hostGlobals
  resolved : name ≠ placeholder

theorem IsOwn.bindable {placeholder name : String} (h : IsOwn name) (hplain : isPlainName name)
    (hne : name ≠ placeholder) : Bindable placeholder name := by
  obtain ⟨hreserved, hglobal⟩ := not_mem_of_underscore h.underscore_mem
  exact ⟨isIdentifier_of_isPlainName hplain, hreserved, hglobal, hne⟩

theorem bindable_of_mem_boundNames {c : Context} {name : String} (h : name ∈ boundNames c) :
    Bindable "__unresolved__" name := by
  have hplaceholder : "__unresolved__".toList
      = '_' :: '_' :: 'u' :: ['n', 'r', 'e', 's', 'o', 'l', 'v', 'e', 'd', '_', '_'] := by decide
  rw [boundNames, List.mem_append, List.mem_cons] at h
  obtain hparameter | rfl | hmem := h
  · have hname := IsParameter.of_mem hparameter
    refine ⟨isIdentifier_of_isPlainName hname.plain, hname.unreserved, hname.noGlobal, ?_⟩
    rintro rfl
    exact hname.notOwn ⟨_, _, by decide, hplaceholder⟩
  · exact isOwn_continuations.bindable (by decide) (by decide)
  · obtain ⟨id, htemporary⟩ := exists_isTemporary hmem
    exact htemporary.isOwn.bindable htemporary.isPlainName
      (htemporary.ne_of_toList hplaceholder (by decide))

end ProcFlow.Code

namespace ProcFlow.Catalog

open Code

/-- In the light of a loaded catalog all names that code binds are different and can be bound, one
parameter for each input; and an input whose name is taken by an earlier one or by a global gets the least
number that makes it free. -/
theorem boundNames_hygienic {c : Catalog} (hloaded : c.Loaded) (g : Graph) :
    (boundNames (c.context g)).Nodup ∧
      (∀ name ∈ boundNames (c.context g), Bindable (c.setup g).placeholder name) ∧
      (parameterNames g).map Prod.fst = g.inputs.keys ∧
      ∀ i key decl, g.inputs.entries[i]? = some (key, decl) →
        ∃ name, (parameterNames g)[i]? = some (key, name) ∧
          Settles (hostGlobals ++ ((parameterNames g).take i).map Prod.snd) (baseName key decl)
            name := by
  refine ⟨nodup_boundNames fun id d hd => ?_, fun name => bindable_of_mem_boundNames,
    map_fst_nameInputs _ _, fun i key decl => nameInputs_settles⟩
  obtain ⟨e, rfl, hfits⟩ := hloaded.exists_fits hd
  exact hfits.suffixes

/-- A division whose inputs ask for taken names, numbered ones among them, and for names of the generator. -/
def crowded : Graph where
  procs := [⟨"div", .ofList [("a", ⟨.entry, "a"⟩), ("b", ⟨.entry, "b"⟩)]⟩]
  edges := []
  inputs := .ofList
    [("a", ⟨["x"], "number"⟩), ("b", ⟨["x"], "number"⟩), ("c", ⟨["x 2"], "number"⟩),
      ("d", ⟨["x_2"], "number"⟩), ("e", ⟨["__"], "number"⟩), ("f", ⟨["_"], "number"⟩),
      ("__k", ⟨[], "number"⟩), ("g", ⟨["Math"], "number"⟩), ("default", ⟨[], "number"⟩)]
  outputFlows := .empty

theorem boundNames_crowded_hygienic :
    standard.Loaded ∧
      boundNames (standard.context crowded)
        = ["x", "x_2", "x_2_2", "x_2_3", "_", "__2", "_k", "Math_2", "default_", "__k", "__n0",
          "__n0_result", "__n0_divByZero"] ∧
      (boundNames (standard.context crowded)).Nodup ∧
      ∃ name, (parameterNames crowded)[3]? = some ("d", name) ∧
        Settles (hostGlobals ++ ["x", "x_2", "x_2_2"]) (baseName "d" ⟨["x_2"], "number"⟩) name := by
  obtain ⟨hnodup, _, _, hsettles⟩ := boundNames_hygienic loaded_standard crowded
  refine ⟨loaded_standard, by decide +kernel, hnodup, ?_⟩
  obtain ⟨name, hname, hsettles⟩ := hsettles 3 "d" ⟨["x_2"], "number"⟩ (by decide +kernel)
  have htaken : ((parameterNames crowded).take 3).map Prod.snd = ["x", "x_2", "x_2_2"] := by
    decide +kernel
  rw [htaken] at hsettles
  exact ⟨name, hname, hsettles⟩

end ProcFlow.Catalog
