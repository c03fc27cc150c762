import ProcFlow.Proofs.Hygiene
/-!
# Two underscores in front of a parameter

Names with two underscores in front are the generator's own. Of the underscores that a parameter's name
starts with all but one are cut off, and after that a name that is taken gets a number behind another
underscore. Where the one that was left is the whole name, the two come together again. That is so for
every input that asks for a name without any character worth keeping, but for the first such input, which
finds the lone underscore free. So parameters stay clear of two underscores exactly as long as there is no
second input of this kind.
-/

namespace ProcFlow.Code

/-- Two underscores in front. -/
def StartsOwn (name : String) : Prop := ['_', '_'] <+: name.toList

instance : DecidablePred StartsOwn := fun name =>
  inferInstanceAs (Decidable (['_', '_'] <+: name.toList))

/-- A name without any character that an identifier keeps, underscores apart. -/
def IsBlank (name : String) : Prop := ∀ c ∈ name.toList, isIdentChar c → c = '_'

instance : DecidablePred IsBlank := fun name =>
  inferInstanceAs (Decidable (∀ c ∈ name.toList, isIdentChar c → c = '_'))

/-- An input that asks for a blank name. -/
def AsksBlank (input : String × InputDecl) : Prop := IsBlank (input.2.names.headD input.1)

instance : DecidablePred AsksBlank := fun input =>
  inferInstanceAs (Decidable (IsBlank (input.2.names.headD input.1)))


/-! ### What is left of a blank name -/

theorem mem_identifier {name : String} {c : Char} (hc : c ∈ name.toList) (hident : isIdentChar c) :
    c ∈ (identifier name).toList := by
  have hmap : c ∈ name.toList.map fun c => if isIdentChar c then c else '_' :=
    List.mem_map.mpr ⟨c, hc, if_pos hident⟩
  rw [identifier]
  generalize name.toList.map (fun c => if isIdentChar c then c else '_') = cs at hmap
  have hstart : c ∈ if cs.isEmpty || startsWithDigit cs then '_' :: cs else cs := by
    split
    · exact List.mem_cons_of_mem _ hmap
    · exact hmap
  generalize (if cs.isEmpty || startsWithDigit cs then '_' :: cs else cs) = cs' at hstart
  split
  · rw [String.toList_append, String.toList_ofList]
    exact List.mem_append_left _ hstart
  · rwa [String.toList_ofList]

theorem mem_trimUnderscores {cs : List Char} {c : Char} (hc : c ∈ cs) (hne : c ≠ '_') :
    c ∈ trimUnderscores cs := by
  unfold trimUnderscores
  split
  next rest =>
    have hrest : c ∈ rest := (List.mem_cons.mp hc).resolve_left hne
    rw [← List.takeWhile_append_dropWhile (p := fun c => decide (c = '_')) (l := rest),
      List.mem_append] at hrest
    refine List.mem_cons_of_mem _ (hrest.resolve_left fun htake => hne ?_)
    simpa using List.mem_takeWhile_imp htake
  · exact hc

/-- Of a blank name nothing but underscores is kept, and of these there is at least one. -/
theorem exists_identifier_eq_replicate {name : String} (h : IsBlank name) :
    ∃ n, (identifier name).toList = '_' :: List.replicate n '_' := by
  have hmap : name.toList.map (fun c => if isIdentChar c then c else '_')
      = List.replicate name.toList.length '_' := by
    rw [List.eq_replicate_iff]
    refine ⟨List.length_map _, fun c hc => ?_⟩
    obtain ⟨x, hx, rfl⟩ := List.mem_map.mp hc
    split
    next hident => exact h x hx hident
    · rfl
  have hreserved : ∀ n, String.ofList ('_' :: List.replicate n '_') ∉ reservedWords := fun n =>
    (not_mem_of_underscore (by rw [String.toList_ofList]; exact List.mem_cons_self)).1
  rw [identifier, hmap]
  cases name.toList.length with
  | zero => exact ⟨0, by decide⟩
  | succ n =>
      refine ⟨n, ?_⟩
      have hstart : (if (List.replicate (n + 1) '_').isEmpty || startsWithDigit (List.replicate (n + 1) '_')
          then '_' :: List.replicate (n + 1) '_' else List.replicate (n + 1) '_')
          = '_' :: List.replicate n '_' := rfl
      rw [hstart, if_neg (hreserved n), String.toList_ofList]

/-- The lone underscore is what blank names are cut down to, and no other ones. -/
theorem baseName_eq_underscore_iff (key : String) (decl : InputDecl) :
    baseName key decl = "_" ↔ AsksBlank (key, decl) := by
  have hlone : "_".toList = ['_'] := by decide
  rw [← String.toList_inj, toList_baseName, hlone]
  refine ⟨fun heq c hc hident => ?_, fun hblank => ?_⟩
  · by_contra hne
    have hmem := mem_trimUnderscores (mem_identifier hc hident) hne
    rw [heq, List.mem_singleton] at hmem
    exact hne hmem
  · obtain ⟨n, hident⟩ := exists_identifier_eq_replicate hblank
    have hdrop : (List.replicate n '_').dropWhile (fun c => decide (c = '_')) = [] :=
      List.dropWhile_eq_nil_iff.mpr fun c hc => decide_eq_true (List.eq_of_mem_replicate hc)
    rw [hident, trimUnderscores, hdrop]


/-! ### Naming one input -/

section Settles

variable {taken : List String} {key : String} {decl : InputDecl} {name : String}
  (h : Settles taken (baseName key decl) name)

include h

/-- Only a blank name gets two underscores in front, and only when the lone underscore is taken. -/
theorem Settles.startsOwn_iff : StartsOwn name ↔ AsksBlank (key, decl) ∧ "_" ∈ taken := by
  rw [← baseName_eq_underscore_iff]
  have hbase := toList_baseName_ne key decl
  obtain ⟨first, others, hfirst, _, _⟩ := isPlainName_iff.mp (isPlainName_baseName key decl)
  generalize baseName key decl = base at h hbase hfirst
  cases h with
  | free hfree =>
      refine ⟨?_, fun hblank => absurd (hblank.1 ▸ hblank.2) hfree⟩
      rintro ⟨rest, hrest⟩
      exact absurd hrest.symm (hbase rest)
  | @suffixed n htaken _ _ _ =>
      rw [StartsOwn, toList_numbered, hfirst, List.cons_append, List.cons_prefix_cons]
      cases others with
      | nil =>
          have hlone : base = "_" ↔ first = '_' := by
            rw [← String.toList_inj, hfirst]
            simp
          rw [hlone, List.nil_append, List.cons_prefix_cons]
          refine ⟨fun hstart => ⟨hstart.1.symm, ?_⟩, fun hblank => ⟨hblank.1.symm, rfl, List.nil_prefix⟩⟩
          rwa [← hlone.mpr hstart.1.symm]
      | cons second others =>
          refine ⟨fun hstart => ?_, fun hblank => ?_⟩
          · rw [List.cons_append, List.cons_prefix_cons] at hstart
            refine absurd ?_ (hbase others)
            rw [hfirst, ← hstart.1, ← hstart.2.1]
          · rw [hblank.1] at hfirst
            exact absurd (List.cons.inj hfirst).2 (List.cons_ne_nil _ _).symm

/-- After an input has been named the lone underscore is taken if it was before or if it was asked for. -/
theorem Settles.underscore_mem_iff :
    "_" ∈ name :: taken ↔ AsksBlank (key, decl) ∨ "_" ∈ taken := by
  rw [← baseName_eq_underscore_iff, List.mem_cons]
  obtain ⟨first, others, hfirst, _, _⟩ := isPlainName_iff.mp (isPlainName_baseName key decl)
  generalize baseName key decl = base at h hfirst
  cases h with
  | free _ => rw [eq_comm]
  | @suffixed n htaken _ _ _ =>
      have hne : "_" ≠ numbered base n := by
        intro heq
        have hlist := congrArg (List.length ∘ String.toList) heq
        rw [Function.comp_apply, Function.comp_apply, toList_numbered, hfirst] at hlist
        simp at hlist
      refine ⟨fun hmem => Or.inr (hmem.resolve_left hne), ?_⟩
      rintro (rfl | hmem)
      · exact Or.inr htaken
      · exact Or.inr hmem

end Settles


/-! ### Naming all inputs -/

/-- Each input that asks for a blank name when the lone underscore is taken gets two underscores. -/
theorem countP_startsOwn_nameInputs (used : List String) (inputs : List (String × InputDecl)) :
    ((nameInputs used inputs).map Prod.snd).countP (fun name => StartsOwn name)
      = inputs.countP (fun input => AsksBlank input) - if "_" ∈ used then 0 else 1 := by
  induction inputs generalizing used with
  | nil => simp [nameInputs]
  | cons e rest ih =>
      obtain ⟨key, decl⟩ := e
      have hsettles := freshName_settles used (baseName key decl)
      rw [nameInputs, List.map_cons, List.countP_cons, List.countP_cons, ih]
      simp only [decide_eq_true_eq, hsettles.startsOwn_iff, hsettles.underscore_mem_iff]
      by_cases hblank : AsksBlank (key, decl)
      · by_cases hused : "_" ∈ used <;> simp [hblank, hused]
      · simp [hblank]

/-- No parameter of a graph starts with two underscores if and only if at most one of its inputs asks for a
blank name. -/
theorem parameterNames_reserve_iff (g : Graph) :
    (∀ name ∈ (parameterNames g).map Prod.snd, ¬ StartsOwn name)
      ↔ g.inputs.entries.countP (fun input => AsksBlank input) ≤ 1 := by
  have hcount := countP_startsOwn_nameInputs hostGlobals g.inputs.entries
  rw [if_neg (by decide)] at hcount
  have hnone : (∀ name ∈ (parameterNames g).map Prod.snd, ¬ StartsOwn name)
      ↔ ((parameterNames g).map Prod.snd).countP (fun name => StartsOwn name) = 0 := by
    simp only [List.countP_eq_zero, decide_eq_true_eq]
  rw [hnone, parameterNames, hcount, Nat.sub_eq_zero_iff_le]

/-- Two inputs without a name to speak of. -/
def nameless : Graph where
  procs := []
  edges := [⟨.entry, .output "done"⟩]
  inputs := .ofList [("a", ⟨[""], "number"⟩), ("b", ⟨["_"], "number"⟩)]
  outputFlows := .ofList [("done", .empty)]

theorem exists_startsOwn_nameless :
    (parameterNames nameless).map Prod.snd = ["_", "__2"] ∧
      ¬ ∀ g, ∀ name ∈ (parameterNames g).map Prod.snd, ¬ StartsOwn name := by
  have hnames : (parameterNames nameless).map Prod.snd = ["_", "__2"] := by decide +kernel
  refine ⟨hnames, fun hall => hall nameless "__2" ?_ (by decide)⟩
  rw [hnames]
  decide

end ProcFlow.Code
