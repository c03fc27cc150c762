import ProcFlow.Graph.Json
import ProcFlow.Proofs.Lookup
import ProcFlow.Proofs.Written
/-!
# Decoders and what they give

A decoder *reads* a value from a document if it gives the value wherever the document stands with enough
room below it for its own lists and objects. Each way to put decoders together has one lemma here, in
step with how its documents are put together, so a format is read back by following its shape.

In the other direction, a decoder *yields* values of a kind if it gives no others, whatever it is asked to
read. This needs no document: the property goes from the parts to the whole along the same ways.
-/

namespace ProcFlow.Json

open Decode (RecordField Shape)

variable {α σ : Type}

/-- The decoder gives `x` for the document, if `height` more lists and objects may be open. -/
def Reads (decoder : Decoder α) (height : Nat) (d : Document) (x : α) : Prop :=
  ∀ r : Reading, r.depth + height ≤ maxDepth → decoder r d.node = .ok x

theorem Reading.exists_enter {r : Reading} {height : Nat} (h : r.depth + (height + 1) ≤ maxDepth) :
    ∃ inner, r.enter = .ok inner ∧ inner.depth + height ≤ maxDepth := by
  refine ⟨{ r with depth := r.depth + 1 }, ?_, ?_⟩
  · rw [enter, if_pos]
    omega
  · show r.depth + 1 + height ≤ maxDepth
    omega

namespace Reads

variable {height : Nat}

theorem mono {decoder : Decoder α} {d : Document} {x : α} (h : Reads decoder height d x) {higher : Nat}
    (hle : height ≤ higher) : Reads decoder higher d x :=
  fun r hr => h r (by omega)

theorem string (s : String) : Reads Decode.string height (.string s) s :=
  fun _ _ => Literal.text_ofString s

theorem word32 {n : Nat} (h : n < UInt32.size) : Reads Decode.word32 height (.number n) n := by
  intro r _
  have hvalue : (Numeral.ofNat n).value = .ok (.natural n) :=
    Numeral.value_ofNat (Nat.lt_trans h (by decide))
  rw [Document.node, Decode.word32, hvalue]
  exact if_pos h

theorem list {item : Decoder α} {doc : α → Document} {xs : List α}
    (h : ∀ x ∈ xs, Reads item height (doc x) x) :
    Reads (Decode.list item) (height + 1) (.list (xs.map doc)) xs := by
  intro r hr
  obtain ⟨inner, henter, hinner⟩ := Reading.exists_enter hr
  have hitems : ((xs.map doc).map Document.node).mapM (item inner) = .ok xs := by
    rw [List.map_map, mapM_map_eq_ok (k := id), List.map_id]
    exact fun x hx => h x hx inner hinner
  rw [Document.node, Document.itemNodes_eq_map, Decode.list]
  simp only [henter, hitems, bind, Except.bind]
  rfl

theorem table {item : Decoder α} {doc : α → Document} {t : Table α}
    (h : ∀ e ∈ t.entries, Reads item height (doc e.2) e.2) :
    Reads (Decode.table item) (height + 1) (t.document doc) t := by
  intro r hr
  obtain ⟨inner, henter, hinner⟩ := Reading.exists_enter hr
  rw [Table.document, Document.node, Document.memberNodes_eq_map, List.map_map, Decode.table]
  simp only [henter, bind, Except.bind]
  rw [mapM_map_eq_ok (k := id), List.map_id]
  · exact congrArg Except.ok t.ofList_entries
  · intro e he
    simp only [Function.comp_apply, Literal.text_ofString]
    rw [h e he inner hinner]
    rfl

end Reads

theorem Decode.text_eq_ok {decoder : Decoder α} {height : Nat} {d : Document} {x : α}
    (h : Reads decoder height d x) (hheight : height ≤ maxDepth) {s : String}
    (htext : Node.ofText s = (d.node, [])) : Decode.text decoder s = .ok x := by
  have hread : decoder {} d.node = .ok x := h {} (by show 0 + height ≤ maxDepth; omega)
  rw [Decode.text, htext]
  simp only [hread]
  rfl


/-! ### Documents that pass a check -/

/-- A check is a decoder that gives nothing. -/
abbrev Checks (height : Nat) (d : Document) : Prop := Reads Node.check height d ()

namespace Checks

variable {height : Nat}

theorem string (s : String) : Checks height (.string s) := by
  intro r _
  rw [Document.node, Node.check, Literal.text_ofString]
  rfl

theorem number {n : Nat} (h : n < UInt64.size) : Checks height (.number n) := by
  intro r _
  rw [Document.node, Node.check, Numeral.value_ofNat h]
  rfl

theorem list {items : List Document} (h : ∀ d ∈ items, Checks height d) :
    Checks (height + 1) (.list items) := by
  intro r hr
  obtain ⟨inner, henter, hinner⟩ := Reading.exists_enter hr
  have hitems : Node.checkItems inner (Document.itemNodes items) = .ok () := by
    induction items with
    | nil => rfl
    | cons d rest ih =>
        rw [Document.itemNodes, Node.checkItems, h d List.mem_cons_self inner hinner]
        exact ih fun d hd => h d (List.mem_cons_of_mem _ hd)
  rw [Document.node, Node.check, henter]
  simp only [bind, Except.bind, hitems]
  rfl

theorem object {members : List (String × Document)} (h : ∀ m ∈ members, Checks height m.2) :
    Checks (height + 1) (.object members) := by
  intro r hr
  obtain ⟨inner, henter, hinner⟩ := Reading.exists_enter hr
  have hmembers : Node.checkMembers inner (Document.memberNodes members) = .ok () := by
    induction members with
    | nil => rfl
    | cons m rest ih =>
        rw [Document.memberNodes, Node.checkMembers, Literal.text_ofString]
        simp only [bind, Except.bind, h m List.mem_cons_self inner hinner]
        exact ih fun m hm => h m (List.mem_cons_of_mem _ hm)
  rw [Document.node, Node.check, henter]
  simp only [bind, Except.bind, hmembers]
  rfl

end Checks


/-! ### Records

A record is written with its fields in the order of its shape, so it is read by reading one field after
the other. -/

/-- The members as they are set aside. -/
def setAside (members : List (String × Document)) : List (String × Node) :=
  members.map fun m => (m.1, m.2.node)

/-- The fields read the members one by one, and lead from the first draft to the second. -/
inductive Fills (height : Nat) :
    List (RecordField σ) → σ → List (String × Document) → σ → Prop where
  | nil (draft : σ) : Fills height [] draft [] draft
  | cons {f : RecordField σ} {fields : List (RecordField σ)} {draft next last : σ} {d : Document}
      {members : List (String × Document)} (hfree : f.isSet draft = false)
      (hread : Reads (f.read draft) height d next) (hrest : Fills height fields next members last) :
      Fills height (f :: fields) draft ((f.name, d) :: members) last

namespace Fills

variable {height : Nat}

theorem slot {name : String} {required : Bool} {item : Decoder α} {get : σ → Option α}
    {set : σ → α → σ} {fields : List (RecordField σ)} {draft last : σ} {d : Document} {x : α}
    {members : List (String × Document)} (hread : Reads item height d x)
    (hfree : get draft = none) (hrest : Fills height fields (set draft x) members last) :
    Fills height (.slot name required item get set :: fields) draft ((name, d) :: members) last := by
  refine cons (f := .slot name required item get set) ?_ ?_ hrest
  · show (get draft).isSome = false
    rw [hfree]
    rfl
  · intro r hr
    show (do return set draft (← item r d.node)) = Except.ok (set draft x)
    rw [hread r hr]
    rfl

/-- The field of a name, where no two fields have the same name. -/
theorem find?_field {fields : List (RecordField σ)} (hnodup : (fields.map RecordField.name).Nodup)
    {f : RecordField σ} (hf : f ∈ fields) :
    (fields.find? fun f' => f'.name == f.name) = some f := by
  induction fields with
  | nil => exact absurd hf List.not_mem_nil
  | cons f' rest ih =>
      rw [List.map_cons, List.nodup_cons] at hnodup
      rcases List.mem_cons.mp hf with rfl | hmem
      · exact List.find?_cons_of_pos (beq_self_eq_true f.name)
      · have hname : f'.name ≠ f.name := fun heq =>
          hnodup.1 (heq ▸ List.mem_map_of_mem hmem)
        rw [List.find?_cons_of_neg (by simpa using hname), ih hnodup.2 hmem]

theorem readSetAside {shape : Shape σ} (hnodup : (shape.fields.map RecordField.name).Nodup)
    {fields : List (RecordField σ)} (hfields : ∀ f ∈ fields, f ∈ shape.fields) {draft last : σ}
    {members : List (String × Document)} (h : Fills height fields draft members last) {r : Reading}
    (hr : r.depth + height ≤ maxDepth) :
    shape.readSetAside r draft (setAside members) = .ok last := by
  induction h with
  | nil draft => rfl
  | @cons f fields draft next last d members hfree hread hrest ih =>
      -- The shape may have fields before this one, but none of its name.
      have hmember : shape.readMember r draft f.name d.node = .ok next := by
        rw [Shape.readMember, find?_field hnodup (hfields f List.mem_cons_self)]
        simp only [hfree, Bool.false_eq_true, if_false]
        exact hread r hr
      rw [setAside, List.map_cons, Shape.readSetAside, List.foldlM_cons]
      simp only [hmember]
      exact ih fun f hf => hfields f (List.mem_cons_of_mem _ hf)

theorem readMembers_eq {shape : Shape σ} (r : Reading) (draft : σ)
    (members : List (String × Document)) :
    shape.readMembers r draft (Document.memberNodes members)
      = shape.readSetAside r draft (setAside members) := by
  rw [Shape.readMembers, Shape.readSetAside, Document.memberNodes_eq_map, setAside, List.foldlM_map,
    List.foldlM_map]
  simp only [Literal.text_ofString]
  rfl

end Fills

theorem Reads.record {height : Nat} {shape : Shape σ} {start draft : σ}
    {finish : σ → Except Fault α} {members : List (String × Document)} {x : α}
    (h : Fills height shape.fields start members draft)
    (hnodup : (shape.fields.map RecordField.name).Nodup) (hfinish : finish draft = .ok x) :
    Reads (shape.decoder start finish) (height + 1) (.object members) x := by
  intro r hr
  obtain ⟨inner, henter, hinner⟩ := Reading.exists_enter hr
  have hmembers := h.readSetAside hnodup (fun f hf => hf) hinner
  rw [Document.node, Shape.decoder]
  simp only [henter, bind, Except.bind, Fills.readMembers_eq, hmembers]
  exact hfinish


/-! ### Tagged alternatives -/

/-- Members beside a tag are kept as they are, in order. -/
theorem collectMembers_eq {height : Nat} {names : List String} {name : String}
    {members : List (String × Document)}
    (hmembers : ∀ m ∈ members, m.1 ≠ "type" ∧ Checks height m.2) {r : Reading}
    (hr : r.depth + height ≤ maxDepth) (kept : List (String × Node)) :
    Decode.collectMembers names r (Document.memberNodes members) (some name) kept
      = .ok (some name, kept.reverse ++ setAside members) := by
  induction members generalizing kept with
  | nil =>
      rw [Document.memberNodes, Decode.collectMembers, setAside, List.map_nil, List.append_nil]
  | cons m rest ih =>
      obtain ⟨hkey, hcheck⟩ := hmembers m List.mem_cons_self
      rw [Document.memberNodes, Decode.collectMembers, Literal.text_ofString]
      simp only [bind, Except.bind, if_neg hkey]
      rw [hcheck r hr]
      simp only
      -- What has been kept stands newest first.
      rw [ih fun m hm => hmembers m (List.mem_cons_of_mem _ hm)]
      simp [setAside]

theorem Reads.tagged {height : Nat} {title : String} {names : List String}
    {read : String → Reading → Decode.Payload → Except Fault α} {name : String}
    {members : List (String × Document)} {x : α} (hname : name ∈ names)
    (hmembers : ∀ m ∈ members, m.1 ≠ "type" ∧ Checks height m.2)
    (hread : ∀ r : Reading, r.depth + height ≤ maxDepth →
      read name r (.members (setAside members)) = .ok x) :
    Reads (Decode.tagged title names read) (height + 1)
      (.object (("type", .string name) :: members)) x := by
  intro r hr
  obtain ⟨inner, henter, hinner⟩ := Reading.exists_enter hr
  have htag : ∀ r, Decode.tag names r (Document.string name).node = .ok name := by
    intro r
    rw [Document.node, Decode.tag, Literal.text_ofString]
    exact if_pos hname
  have hcollect : Decode.collectMembers names inner
      (Document.memberNodes (("type", .string name) :: members)) none []
      = .ok (some name, setAside members) := by
    rw [Document.memberNodes, Decode.collectMembers, Literal.text_ofString]
    simp only [bind, Except.bind, if_true, Option.isSome_none, Bool.false_eq_true, if_false, htag]
    exact collectMembers_eq hmembers hinner []
  rw [Document.node, Decode.tagged]
  simp only [henter, bind, Except.bind, hcollect]
  exact hread _ hinner

/-- An alternative is read like a record. -/
theorem Reads.alternative {height : Nat} {title : String} {names : List String}
    {read : String → Reading → Decode.Payload → Except Fault α} {name : String} {shape : Shape σ}
    {start draft : σ} {finish : σ → Except Fault α} {members : List (String × Document)} {x : α}
    (hname : name ∈ names) (hmembers : ∀ m ∈ members, m.1 ≠ "type" ∧ Checks height m.2)
    (hread : ∀ r payload, read name r payload = shape.readPayload r start payload >>= finish)
    (hfills : Fills height shape.fields start members draft)
    (hnodup : (shape.fields.map RecordField.name).Nodup) (hfinish : finish draft = .ok x) :
    Reads (Decode.tagged title names read) (height + 1)
      (.object (("type", .string name) :: members)) x := by
  apply Reads.tagged hname hmembers
  intro r hr
  rw [hread, Shape.readPayload, hfills.readSetAside hnodup (fun f hf => hf) hr]
  exact hfinish


/-! ### What a decoder gives at most -/

/-- Whatever the decoder gives has the property. -/
def Yields (decoder : Decoder α) (P : α → Prop) : Prop :=
  ∀ r v x, decoder r v = .ok x → P x

theorem bind_eq_ok {β ε : Type} {x : Except ε α} {f : α → Except ε β} {b : β}
    (h : x >>= f = .ok b) : ∃ a, x = .ok a ∧ f a = .ok b := by
  cases x with
  | error e => cases h
  | ok a => exact ⟨a, rfl, h⟩

theorem foldlM_keeps {β ε : Type} {f : σ → β → Except ε σ} {I : σ → Prop}
    (hstep : ∀ draft b next, I draft → f draft b = .ok next → I next) {l : List β} {draft last : σ}
    (hdraft : I draft) (h : l.foldlM f draft = .ok last) : I last := by
  induction l generalizing draft with
  | nil =>
      cases h
      exact hdraft
  | cons b rest ih =>
      rw [List.foldlM_cons] at h
      obtain ⟨next, hnext, hrest⟩ := bind_eq_ok h
      exact ih (hstep draft b next hdraft hnext) hrest

/-- A field that may be left out is of a kind if what stands for it then is. -/
theorem forall_getD {P : α → Prop} {o : Option α} {fallback : α} (h : ∀ x ∈ o, P x)
    (hfallback : P fallback) : P (o.getD fallback) := by
  cases o with
  | none => exact hfallback
  | some x => exact h x rfl

/-- Reading the field keeps a property of the draft. -/
def Decode.RecordField.Keeps (f : RecordField σ) (I : σ → Prop) : Prop :=
  ∀ draft, I draft → Yields (f.read draft) I

theorem Decode.RecordField.slot_keeps {name : String} {required : Bool} {item : Decoder α}
    {get : σ → Option α} {set : σ → α → σ} {P : α → Prop} {I : σ → Prop} (hitem : Yields item P)
    (hset : ∀ draft x, I draft → P x → I (set draft x)) :
    (RecordField.slot name required item get set).Keeps I := by
  intro draft hdraft r v draft' h
  obtain ⟨x, hx, h⟩ := bind_eq_ok h
  cases h
  exact hset draft x hdraft (hitem r v x hx)

/-- A slot with values of a kind keeps to them. -/
theorem Decode.RecordField.slot_sets {name : String} {required : Bool} {item : Decoder α}
    {get : σ → Option α} {set : σ → α → σ} {P : α → Prop} (hitem : Yields item P)
    (hset : ∀ draft x, get (set draft x) = some x) :
    (RecordField.slot name required item get set).Keeps fun draft => ∀ x ∈ get draft, P x := by
  refine slot_keeps hitem ?_
  intro draft x _ hx y hy
  rw [hset] at hy
  cases hy
  exact hx

/-- Another slot does not matter. -/
theorem Decode.RecordField.slot_leaves {name : String} {required : Bool} {item : Decoder α}
    {get : σ → Option α} {set : σ → α → σ} {I : σ → Prop} (hset : ∀ draft x, I draft → I (set draft x)) :
    (RecordField.slot name required item get set).Keeps I :=
  slot_keeps (P := fun _ => True) (fun _ _ _ _ => trivial) fun draft x hdraft _ => hset draft x hdraft

theorem Decode.need_eq_ok {name : String} {o : Option α} {x : α} (h : Decode.need name o = .ok x) :
    x ∈ o := by
  cases o with
  | none => cases h
  | some y =>
      cases h
      rfl

namespace Decode.Shape

variable {shape : Shape σ} {I : σ → Prop} (hfields : ∀ f ∈ shape.fields, f.Keeps I)
include hfields

theorem readMember_keeps {r : Reading} {draft last : σ} {key : String} {v : Node} (hdraft : I draft)
    (h : shape.readMember r draft key v = .ok last) : I last := by
  unfold readMember at h
  split at h
  · next f hfind =>
    split at h
    · cases h
    · exact hfields f (List.mem_of_find?_eq_some hfind) draft hdraft r v last h
  · split at h
    · cases h
    · obtain ⟨_, _, h⟩ := bind_eq_ok h
      cases h
      exact hdraft

theorem readMembers_keeps {r : Reading} {draft last : σ} {members : List (Literal × Node)}
    (hdraft : I draft) (h : shape.readMembers r draft members = .ok last) : I last := by
  refine foldlM_keeps ?_ hdraft h
  intro draft m next hdraft hmember
  obtain ⟨key, _, hmember⟩ := bind_eq_ok hmember
  exact readMember_keeps hfields hdraft hmember

theorem readSetAside_keeps {r : Reading} {draft last : σ} {members : List (String × Node)}
    (hdraft : I draft) (h : shape.readSetAside r draft members = .ok last) : I last :=
  foldlM_keeps (fun _ _ _ hdraft hmember => readMember_keeps hfields hdraft hmember) hdraft h

omit hfields in
theorem readItems_keeps {r : Reading} {ending : Ending} {fields : List (RecordField σ)}
    (hkeeps : ∀ f ∈ fields, f.Keeps I) {index : Nat} {items extra : List Node} {draft last : σ}
    (hdraft : I draft) (h : shape.readItems r ending index fields items draft = .ok (last, extra)) :
    I last := by
  induction fields generalizing index items draft with
  | nil =>
      cases h
      exact hdraft
  | cons f fields ih =>
      rw [List.forall_mem_cons] at hkeeps
      cases items with
      | nil =>
          rw [readItems] at h
          obtain ⟨_, _, h⟩ := bind_eq_ok h
          split at h
          · cases h
          · exact ih hkeeps.2 hdraft h
      | cons v items =>
          rw [readItems] at h
          obtain ⟨next, hnext, h⟩ := bind_eq_ok h
          exact ih hkeeps.2 (hkeeps.1 draft hdraft r v next hnext) h

theorem readList_keeps {r : Reading} {draft last : σ} {items : List Node} {ending : Ending}
    (hdraft : I draft) (h : shape.readList r draft items ending = .ok last) : I last := by
  obtain ⟨⟨result, extra⟩, hitems, h⟩ := bind_eq_ok h
  have hresult : I result := readItems_keeps hfields hdraft hitems
  simp only at h
  split at h
  · obtain ⟨_, _, h⟩ := bind_eq_ok h
    cases h
    exact hresult
  · split at h <;> cases h

theorem readPayload_keeps {r : Reading} {draft last : σ} {payload : Decode.Payload}
    (hdraft : I draft) (h : shape.readPayload r draft payload = .ok last) : I last := by
  cases payload with
  | members members => exact readSetAside_keeps hfields hdraft h
  | items items => exact readList_keeps hfields hdraft h

end Decode.Shape

namespace Yields

variable {P : α → Prop}

theorem word32 : Yields Decode.word32 (· < UInt32.size) := by
  intro r v x h
  unfold Decode.word32 at h
  split at h
  · obtain ⟨value, _, h⟩ := bind_eq_ok h
    split at h
    · split at h
      · next hlt =>
        cases h
        exact hlt
      · cases h
    · cases h
    · cases h
  · cases h

theorem list {item : Decoder α} (h : Yields item P) : Yields (Decode.list item) (∀ x ∈ ·, P x) := by
  intro r v xs hread
  unfold Decode.list at hread
  split at hread
  · obtain ⟨r', _, hread⟩ := bind_eq_ok hread
    obtain ⟨xs', hitems, hread⟩ := bind_eq_ok hread
    obtain ⟨_, _, hread⟩ := bind_eq_ok hread
    cases hread
    intro x hx
    obtain ⟨v, _, hv⟩ := exists_of_mem_mapM hitems x hx
    exact h r' v x hv
  · cases hread

theorem table {item : Decoder α} (h : Yields item P) :
    Yields (Decode.table item) fun t => ∀ e ∈ t.entries, P e.2 := by
  intro r v t hread
  unfold Decode.table at hread
  split at hread
  · obtain ⟨r', _, hread⟩ := bind_eq_ok hread
    obtain ⟨entries, hentries, hread⟩ := bind_eq_ok hread
    obtain ⟨_, _, hread⟩ := bind_eq_ok hread
    cases hread
    intro e he
    have hget := (Table.get?_eq_some_iff _ e.1 e.2).mpr he
    rcases Table.get?_foldl_insert (f := id) entries .empty hget with hnone | ⟨x, hx, hvalue⟩
    · cases hnone
    · obtain ⟨m, _, hm⟩ := exists_of_mem_mapM hentries (e.1, x) hx
      obtain ⟨key, _, hm⟩ := bind_eq_ok hm
      obtain ⟨y, hy, hm⟩ := bind_eq_ok hm
      cases hm
      rw [hvalue]
      exact h r' m.2 x hy
  · cases hread

theorem record {shape : Shape σ} {start : σ} {finish : σ → Except Fault α} {I : σ → Prop}
    (hfields : ∀ f ∈ shape.fields, f.Keeps I) (hstart : I start)
    (hfinish : ∀ draft x, I draft → finish draft = .ok x → P x) :
    Yields (shape.decoder start finish) P := by
  intro r v x h
  unfold Shape.decoder at h
  split at h
  · obtain ⟨r', _, h⟩ := bind_eq_ok h
    obtain ⟨draft, hdraft, h⟩ := bind_eq_ok h
    exact hfinish draft x (Shape.readList_keeps hfields hstart hdraft) h
  · obtain ⟨r', _, h⟩ := bind_eq_ok h
    obtain ⟨draft, hdraft, h⟩ := bind_eq_ok h
    obtain ⟨_, _, h⟩ := bind_eq_ok h
    exact hfinish draft x (Shape.readMembers_keeps hfields hstart hdraft) h
  · cases h

theorem tagged {title : String} {names : List String}
    {read : String → Reading → Decode.Payload → Except Fault α}
    (h : ∀ name r payload x, read name r payload = .ok x → P x) :
    Yields (Decode.tagged title names read) P := by
  intro r v x hread
  unfold Decode.tagged at hread
  split at hread
  · obtain ⟨r', _, hread⟩ := bind_eq_ok hread
    split at hread
    · obtain ⟨_, _, hread⟩ := bind_eq_ok hread
      cases hread
    · obtain ⟨name, _, hread⟩ := bind_eq_ok hread
      obtain ⟨_, _, hread⟩ := bind_eq_ok hread
      obtain ⟨_, _, hread⟩ := bind_eq_ok hread
      exact h _ _ _ x hread
  · obtain ⟨r', _, hread⟩ := bind_eq_ok hread
    obtain ⟨result, _, hread⟩ := bind_eq_ok hread
    obtain ⟨_, _, hread⟩ := bind_eq_ok hread
    obtain ⟨name, _, hread⟩ := bind_eq_ok hread
    exact h _ _ _ x hread
  · cases hread

end Yields

theorem Decode.yields_of_text {decoder : Decoder α} {P : α → Prop} (h : Yields decoder P) {s : String}
    {x : α} (hread : Decode.text decoder s = .ok x) : P x := by
  obtain ⟨y, hy, hread⟩ := bind_eq_ok hread
  split at hread
  · cases hread
    exact h _ _ x hy
  · cases hread

end ProcFlow.Json
