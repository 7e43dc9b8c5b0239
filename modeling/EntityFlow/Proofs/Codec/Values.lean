import EntityFlow.Codec.Node
import Mathlib.Algebra.Group.Int.Defs

/-!
# What is written can be read

One lemma for each type: its reader gives back the value that its writer wrote.  Records rest on
`record?_obj`, lists and optional values on `toList?_list` and `toOption?_option`, and enumerations
on `caseOf?_name`.

Identities and integers are unbounded here, and the readers accept words only: 32 bits for an
identity and 64 bits for an integer.  `fits` says that all words of a value are in range.  A type
that has no words of its own is read back without a condition.

Numbers that are not finite have no text.  They are written as `null`, which is read as no number,
so that nothing which holds one is read back.  `isFinite` says that a value holds none.
-/

namespace EntityFlow

/-! ## Records, lists, optional values and enumerations -/

namespace Json

variable {α : Type} {f : α → Json} {r : Json → Option α}

/-- Under distinct names a field is found by its name. -/
theorem find?_fst_of_nodup {fields : List (String × Json)} {b : String × Json}
    (hnodup : (fields.map Prod.fst).Nodup) (hb : b ∈ fields) :
    fields.find? (fun a => a.1 == b.1) = some b := by
  induction fields with
  | nil => simp at hb
  | cons a rest ih =>
    rw [List.map_cons, List.nodup_cons] at hnodup
    rcases List.mem_cons.1 hb with rfl | hrest
    · simp
    · have hne : a.1 ≠ b.1 := fun h => hnodup.1 (h ▸ List.mem_map_of_mem hrest)
      rw [List.find?_cons_of_neg (by simpa using hne), ih hnodup.2 hrest]

/-- Under distinct names no field is given twice. -/
theorem length_filter_fst_le_one {fields : List (String × Json)} (n : String)
    (hnodup : (fields.map Prod.fst).Nodup) : (fields.filter fun a => a.1 == n).length ≤ 1 := by
  have hcount := List.nodup_iff_count.1 hnodup n
  rwa [List.count, List.countP_map, List.countP_eq_length_filter] at hcount

/-- An object whose fields are those of the record, in order, gives their values. -/
theorem record?_obj {fields : List (String × Json)} {names : List String}
    (hnames : fields.map Prod.fst = names) (hnodup : names.Nodup) :
    (obj fields).record? names = some (fields.map Prod.snd) := by
  subst hnames
  have honce : (fields.map Prod.fst).all
      (fun n => (fields.filter fun a => a.1 == n).length ≤ 1) = true := by
    rw [List.all_eq_true]
    exact fun n _ => decide_eq_true (length_filter_fst_le_one n hnodup)
  rw [record?, if_pos honce, List.map_map]
  refine congrArg some (List.map_congr_left fun b hb => ?_)
  simp [find?_fst_of_nodup hnodup hb]

/-- An object is read by the names of its fields, in either form. -/
theorem content?_obj (form : VariantForm) (fields : List (String × Json)) (names : List String) :
    (obj fields).content? form names = (obj fields).record? names := by
  cases form <;> rfl

/-- A list is read back if its elements are. -/
theorem toList?_list {items : List α} (h : ∀ a ∈ items, r (f a) = some a) :
    (list f items).toList? r = some items := by
  rw [list, toList?, List.mapM_map]
  induction items with
  | nil => rfl
  | cons a rest ih =>
    have hrest := ih fun b hb => h b (List.mem_cons_of_mem a hb)
    simp [h a List.mem_cons_self, hrest]

/-- A list is not read if one of its items is not. -/
theorem toList?_list_eq_none {items : List α} {a : α} (ha : a ∈ items) (h : r (f a) = none) :
    (list f items).toList? r = none := by
  rw [list, toList?, List.mapM_map]
  induction items with
  | nil => exact absurd ha List.not_mem_nil
  | cons b rest ih =>
    rcases List.mem_cons.1 ha with rfl | hrest
    · simp [h]
    · cases hb : r (f b) <;> simp [hb, ih hrest]

/-- An optional value is read back if the value is, and is not written as `null`. -/
theorem toOption?_option {o : Option α} (hnull : ∀ a, f a ≠ null) (h : ∀ a ∈ o, r (f a) = some a) :
    (option f o).toOption? r = some o := by
  cases o with
  | none => rfl
  | some a => simp [option, toOption?, hnull a, h a rfl]

theorem toList?_list_of_all {p : α → Bool} {items : List α} (hp : ∀ a, p a → r (f a) = some a)
    (h : items.all p) : (list f items).toList? r = some items :=
  toList?_list fun a ha => hp a (List.all_eq_true.1 h a ha)

theorem toOption?_option_of_all {p : α → Bool} {o : Option α} (hnull : ∀ a, f a ≠ null)
    (hp : ∀ a, p a → r (f a) = some a) (h : o.all p) : (option f o).toOption? r = some o :=
  toOption?_option hnull fun a ha => hp a ((Option.all_eq_true p o).1 h a ha)

end Json

/-- In a table of distinct names every entry is found by its name. -/
theorem lookup_map_of_nodup {α : Type} {all : List α} {name : α → String} {a : α}
    (hnodup : (all.map name).Nodup) (ha : a ∈ all) :
    (all.map fun b => (name b, b)).lookup (name a) = some a := by
  induction all with
  | nil => simp at ha
  | cons b rest ih =>
    rw [List.map_cons, List.nodup_cons] at hnodup
    rcases List.mem_cons.1 ha with rfl | hrest
    · simp
    · have hne : name a ≠ name b := fun h => hnodup.1 (h ▸ List.mem_map_of_mem hrest)
      rw [List.map_cons, List.lookup_cons, beq_false_of_ne hne]
      exact ih hnodup.2 hrest

/-- Cases with different names are told apart by their names. -/
theorem caseOf?_name {α : Type} {all : List α} {name : α → String} {a : α}
    (hnodup : (all.map name).Nodup) (ha : a ∈ all) :
    caseOf? all name (.str (name a)) = some a :=
  lookup_map_of_nodup hnodup ha

/-! ## Words -/

/-- A number below the bound is read back. -/
theorem Json.toNat?_nat {n bound : Nat} (h : n < bound) : (Json.nat n).toNat? bound = some n := by
  change (if n < bound then some n else none) = some n
  rw [if_pos h]

def NodeId.fits (n : NodeId) : Bool := n.index < idBound
def ContainerId.fits (c : ContainerId) : Bool := c.index < idBound
def MemberId.fits (m : MemberId) : Bool := m.index < idBound

theorem NodeId.ofJson?_toJson {n : NodeId} (h : n.fits) : ofJson? n.toJson = some n := by
  rw [ofJson?, toJson, Json.toNat?_nat (of_decide_eq_true h)]
  rfl

theorem ContainerId.ofJson?_toJson {c : ContainerId} (h : c.fits) : ofJson? c.toJson = some c := by
  rw [ofJson?, toJson, Json.toNat?_nat (of_decide_eq_true h)]
  rfl

theorem MemberId.ofJson?_toJson {m : MemberId} (h : m.fits) : ofJson? m.toJson = some m := by
  rw [ofJson?, toJson, Json.toNat?_nat (of_decide_eq_true h)]
  rfl

theorem NodeId.toOption?_toJson {o : Option NodeId} (h : o.all fits) :
    (Json.option toJson o).toOption? ofJson? = some o :=
  Json.toOption?_option_of_all (fun _ => nofun) (fun _ => ofJson?_toJson) h

/-- A port is read back, being a 16-bit word. -/
theorem portOfJson?_portToJson (p : UInt16) : portOfJson? (portToJson p) = some p := by
  have hlt : p.toNat < portBound := p.toNat_lt
  rw [portOfJson?, portToJson, Json.toNat?_nat hlt, Option.map_some, UInt16.ofNat_toNat]

/-! ## Types and literals -/

@[simp] theorem TypeClass.ofJson?_toJson (c : TypeClass) : ofJson? c.toJson = some c :=
  caseOf?_name (by decide) (by cases c <;> decide)

@[simp] theorem TypeRef.ofJson?_toJson (t : TypeRef) : ofJson? t.toJson = some t := by
  simp [toJson, ofJson?, Json.record?_obj, Json.toString?]

@[simp] theorem TypeRef.toOption?_toJson (t : Option TypeRef) :
    (Json.option toJson t).toOption? ofJson? = some t :=
  Json.toOption?_option (fun _ => nofun) fun t _ => t.ofJson?_toJson

@[simp] theorem TypeRef.toList?_toJson (types : List TypeRef) :
    (Json.list toJson types).toList? ofJson? = some types :=
  Json.toList?_list fun t _ => t.ofJson?_toJson

@[simp] theorem Json.toList?_str (texts : List String) :
    (Json.list .str texts).toList? toString? = some texts :=
  Json.toList?_list fun _ _ => rfl

def Literal.fits : Literal → Bool
  | .int i => -2 ^ 63 ≤ i && i < 2 ^ 63
  | _ => true

/-- An integer literal is read back if it fits. -/
theorem Literal.intOfJson?_int {i : Int} (h : (Literal.int i).fits) :
    intOfJson? (.int i) = some i := by
  have hi : -2 ^ 63 ≤ i ∧ i < 2 ^ 63 := by
    rw [fits, Bool.and_eq_true, decide_eq_true_eq, decide_eq_true_eq] at h
    exact h
  change (if -2 ^ 63 ≤ i ∧ i < 2 ^ 63 then some i else none) = some i
  rw [if_pos hi]

def Literal.isFinite : Literal → Bool
  | .float x | .double x => x.isFinite
  | _ => true

/-- A float is read back exactly if it is finite. -/
theorem Literal.toReal?_floatToJson (x : Float64) :
    (floatToJson x).toReal?.map .finite = if x.isFinite then some x else none := by
  cases x <;> rfl

/-- A literal is read back if it fits and is finite. -/
theorem Literal.ofJson?_toJson {v : Literal} (h : v.fits) (hfinite : v.isFinite) :
    ofJson? v.toJson = some v := by
  cases v with
  | int i => simp [toJson, ofJson?, Json.tagged, Json.variant?, intOfJson?_int h]
  | float x | double x =>
    obtain ⟨y, hy, rfl⟩ := Option.map_eq_some_iff.1 ((toReal?_floatToJson x).trans (if_pos hfinite))
    simp [toJson, ofJson?, Json.tagged, Json.variant?, hy]
  | _ => simp [toJson, ofJson?, Json.tagged, Json.variant?, Json.toBool?, Json.toString?]

/-- A literal that is not finite is not read back. -/
theorem Literal.ofJson?_toJson_eq_none {v : Literal} (h : v.isFinite = false) :
    ofJson? v.toJson = none := by
  cases v with
  | float x | double x =>
    have hinfinite : x.isFinite = false := h
    have hnone : (floatToJson x).toReal? = none := by
      rw [← Option.map_eq_none_iff, toReal?_floatToJson x, hinfinite]
      rfl
    simp [toJson, ofJson?, Json.tagged, Json.variant?, hnone]
  | _ => exact Bool.noConfusion h

/-! ## Ports -/

@[simp] theorem Direction.ofJson?_toJson (d : Direction) : ofJson? d.toJson = some d :=
  caseOf?_name (by decide) (by cases d <;> decide)

@[simp] theorem PortAccess.ofJson?_toJson (a : PortAccess) : ofJson? a.toJson = some a :=
  caseOf?_name (by decide) (by cases a <;> decide)

@[simp] theorem PortKind.ofJson?_toJson (form : Json.VariantForm) (k : PortKind) :
    ofJson? form k.toJson = some k := by
  cases k with
  | flow => rfl
  | value type access =>
    simp [toJson, ofJson?, Json.tagged, Json.variant?, Json.content?_obj, Json.record?_obj]

@[simp] theorem Port.ofJson?_toJson (form : Json.VariantForm) (p : Port) :
    ofJson? form p.toJson = some p := by
  simp [toJson, ofJson?, Json.record?_obj, Json.toString?]

/-! ## Queries and jobs -/

@[simp] theorem ItemAccess.ofJson?_toJson (a : ItemAccess) : ofJson? a.toJson = some a :=
  caseOf?_name (by decide) (by cases a <;> decide)

@[simp] theorem Discipline.ofJson?_toJson (d : Discipline) : ofJson? d.toJson = some d :=
  caseOf?_name (by decide) (by cases d <;> decide)

@[simp] theorem EntityIndex.ofJson?_toJson (i : EntityIndex) : ofJson? i.toJson = some i :=
  caseOf?_name (by decide) (by cases i <;> decide)

@[simp] theorem QueryItem.ofJson?_toJson (i : QueryItem) : ofJson? i.toJson = some i := by
  simp [toJson, ofJson?, Json.record?_obj, Json.toString?]

@[simp] theorem QueryItem.toList?_toJson (items : List QueryItem) :
    (Json.list toJson items).toList? ofJson? = some items :=
  Json.toList?_list fun i _ => i.ofJson?_toJson

@[simp] theorem QueryFilters.ofJson?_toJson (f : QueryFilters) : ofJson? f.toJson = some f := by
  simp [toJson, ofJson?, Json.record?_obj]

@[simp] theorem JobVariable.ofJson?_toJson (v : JobVariable) : ofJson? v.toJson = some v := by
  simp [toJson, ofJson?, Json.record?_obj, Json.toString?, Json.toBool?]

@[simp] theorem JobVariable.toList?_toJson (vars : List JobVariable) :
    (Json.list toJson vars).toList? ofJson? = some vars :=
  Json.toList?_list fun v _ => v.ofJson?_toJson

@[simp] theorem ForeachSpec.ofJson?_toJson (s : ForeachSpec) : ofJson? s.toJson = some s := by
  simp [toJson, ofJson?, Json.record?_obj, Json.toBool?]

@[simp] theorem JobEntitySpec.ofJson?_toJson (s : JobEntitySpec) : ofJson? s.toJson = some s := by
  simp [toJson, ofJson?, Json.record?_obj, Json.toBool?]

@[simp] theorem JobChunkSpec.ofJson?_toJson (s : JobChunkSpec) : ofJson? s.toJson = some s := by
  simp [toJson, ofJson?, Json.record?_obj, Json.toBool?]

/-! ## Members -/

@[simp] theorem Parameter.ofJson?_toJson (p : Parameter) : ofJson? p.toJson = some p := by
  simp [toJson, ofJson?, Json.record?_obj, Json.toString?]

def Function.fits (f : Function) : Bool := f.container.fits && f.entry.all NodeId.fits

theorem Function.ofJson?_toJson {f : Function} (h : f.fits) : ofJson? f.toJson = some f := by
  obtain ⟨hcontainer, hentry⟩ := Bool.and_eq_true_iff.1 h
  have hparams : (Json.list Parameter.toJson f.params).toList? Parameter.ofJson? = some f.params :=
    Json.toList?_list fun p _ => p.ofJson?_toJson
  simp [toJson, ofJson?, Json.record?_obj, Json.toString?, Json.toBool?, hparams,
    ContainerId.ofJson?_toJson hcontainer, NodeId.toOption?_toJson hentry]

def Property.fits (p : Property) : Bool := p.backing.all MemberId.fits

theorem Property.ofJson?_toJson {p : Property} (h : p.fits) : ofJson? p.toJson = some p := by
  have hbacking : (Json.option MemberId.toJson p.backing).toOption? MemberId.ofJson? =
      some p.backing :=
    Json.toOption?_option_of_all (fun _ => nofun) (fun _ => MemberId.ofJson?_toJson) h
  simp [toJson, ofJson?, Json.record?_obj, Json.toString?, Json.toBool?, hbacking]

def Variable.fits (v : Variable) : Bool := v.default.all Literal.fits

/-- No literal is written as `null`, so that a missing default can be told from one. -/
theorem Literal.toJson_ne_null (l : Literal) : l.toJson ≠ .null := by
  cases l <;> nofun

/-- A variable is read back if its default is. -/
theorem Variable.ofJson?_toJson {v : Variable} (h : v.fits)
    (hfinite : v.default.all Literal.isFinite) : ofJson? v.toJson = some v := by
  have hdefault : (Json.option Literal.toJson v.default).toOption? Literal.ofJson? =
      some v.default :=
    Json.toOption?_option Literal.toJson_ne_null fun l hl =>
      Literal.ofJson?_toJson ((Option.all_eq_true _ _).1 h l hl)
        ((Option.all_eq_true _ _).1 hfinite l hl)
  simp [toJson, ofJson?, Json.record?_obj, Json.toString?, Json.toBool?, hdefault]

/-- A variable whose default is not finite is not read back. -/
theorem Variable.ofJson?_toJson_eq_none {v : Variable}
    (h : v.default.all Literal.isFinite = false) : ofJson? v.toJson = none := by
  cases hdefault : v.default with
  | none =>
    rw [hdefault] at h
    exact absurd h (by decide)
  | some l =>
    have hread : (Json.option Literal.toJson v.default).toOption? Literal.ofJson? = none := by
      rw [hdefault] at h ⊢
      simp [Json.option, Json.toOption?, l.toJson_ne_null, Literal.ofJson?_toJson_eq_none h]
    simp [toJson, ofJson?, Json.record?_obj, Json.toString?, hread]

def Member.fits : Member → Bool
  | .function f => f.fits
  | .property p => p.fits
  | .variable v => v.fits

/-- The default of a variable is the only number in a member. -/
def Member.isFinite (m : Member) : Bool := m.asVariable.all fun v => v.default.all Literal.isFinite

/-- A member is read back if it fits and holds no infinite number. -/
theorem Member.ofJson?_toJson {m : Member} (h : m.fits) (hfinite : m.isFinite) :
    ofJson? m.toJson = some m := by
  cases m with
  | function f =>
    simp [toJson, ofJson?, Json.tagged, Json.variant?, Function.ofJson?_toJson h]
  | property p =>
    simp [toJson, ofJson?, Json.tagged, Json.variant?, Property.ofJson?_toJson h]
  | «variable» v =>
    simp [toJson, ofJson?, Json.tagged, Json.variant?, Variable.ofJson?_toJson h hfinite]

/-- A member that holds a number that is not finite is not read back. -/
theorem Member.ofJson?_toJson_eq_none {m : Member} (h : m.isFinite = false) :
    ofJson? m.toJson = none := by
  cases m with
  | «variable» v =>
    simp [toJson, ofJson?, Json.tagged, Json.variant?, Variable.ofJson?_toJson_eq_none h]
  | _ => exact Bool.noConfusion h

/-! ## Settings -/

@[simp] theorem Flavor.ofJson?_toJson (f : Flavor) : ofJson? f.toJson = some f :=
  caseOf?_name (by decide) (by cases f <;> decide)

@[simp] theorem Modifier.ofJson?_toJson (m : Modifier) : ofJson? m.toJson = some m := by
  simp [toJson, ofJson?, Json.record?_obj, Json.toBool?]

theorem Settings.ofJson?_toJson (s : Settings) : ofJson? s.toJson = some s := by
  have hnamespace : (Json.option .str s.namespaceName).toOption? Json.toString? =
      some s.namespaceName := Json.toOption?_option (fun _ => nofun) fun _ _ => rfl
  simp [toJson, ofJson?, Json.record?_obj, Json.toString?, Json.toBool?, hnamespace]

/-! ## Nodes -/

@[simp] theorem Lifecycle.ofJson?_toJson (e : Lifecycle) : ofJson? e.toJson = some e :=
  caseOf?_name (by decide) (by cases e <;> decide)

@[simp] theorem BinaryOp.ofJson?_toJson (op : BinaryOp) : ofJson? op.toJson = some op :=
  caseOf?_name (by decide) (by cases op <;> decide)

@[simp] theorem ExternalUse.paramsOfJson?_list (params : List (String × TypeRef)) :
    paramsOfJson? (.list paramToJson params) = some params :=
  Json.toList?_list fun p _ => by simp [paramToJson, Json.toPair?, Json.toString?]

@[simp] theorem ExternalUse.ofJson?_toJson (form : Json.VariantForm) (use : ExternalUse) :
    ofJson? form use.toJson = some use := by
  cases use <;>
    simp [toJson, ofJson?, Json.tagged, Json.variant?, Json.content?_obj, Json.record?_obj,
      Json.toBool?]

@[simp] theorem External.ofJson?_toJson (form : Json.VariantForm) (e : External) :
    ofJson? form e.toJson = some e := by
  simp [toJson, ofJson?, Json.record?_obj, Json.toString?]

def MemberTarget.fits : MemberTarget → Bool
  | .function m | .property m | .variable m => m.fits
  | .external _ => true

theorem MemberTarget.ofJson?_toJson {t : MemberTarget} (form : Json.VariantForm) (h : t.fits) :
    ofJson? form t.toJson = some t := by
  cases t with
  | external e => simp [toJson, ofJson?, Json.tagged, Json.variant?]
  | _ => simp [toJson, ofJson?, Json.tagged, Json.variant?, MemberId.ofJson?_toJson h]

namespace NodeKind

def fits : NodeKind → Bool
  | .functionEntry f => f.fits
  | .literal v => v.fits
  | .member target => target.fits
  | .executor _ job => job.all NodeId.fits
  | _ => true

theorem componentOfJson?_obj (form : Json.VariantForm) (c : Option TypeRef) :
    componentOfJson? form (.obj [("component", .option TypeRef.toJson c)]) = some c := by
  simp [componentOfJson?, Json.content?_obj, Json.record?_obj]

def isFinite : NodeKind → Bool
  | .literal v => v.isFinite
  | _ => true

/-- A kind of node is read back if it fits and holds no infinite number, in either form. -/
theorem ofJson?_toJson {k : NodeKind} (form : Json.VariantForm) (h : k.fits)
    (hfinite : k.isFinite) : ofJson? form k.toJson = some k := by
  cases k with
  | ret | setValue | branch | createEntity | destroyEntity => rfl
  | event e => exact congrArg (Option.map event) e.ofJson?_toJson
  | «foreach» spec => exact congrArg (Option.map foreach) spec.ofJson?_toJson
  | jobEntity spec => exact congrArg (Option.map jobEntity) spec.ofJson?_toJson
  | jobChunk spec => exact congrArg (Option.map jobChunk) spec.ofJson?_toJson
  | getComponent c => exact congrArg (Option.map getComponent) (componentOfJson?_obj form c)
  | setComponent c => exact congrArg (Option.map setComponent) (componentOfJson?_obj form c)
  | setComponentEnabled c =>
    exact congrArg (Option.map setComponentEnabled) (componentOfJson?_obj form c)
  | operator op type | localVar name type =>
    simp [toJson, ofJson?, Json.tagged, Json.variant?, carrying?, Json.content?_obj,
      Json.record?_obj, Json.toString?]
  | functionEntry f =>
    simp [toJson, ofJson?, Json.tagged, Json.variant?, carrying?, Json.content?_obj,
      Json.record?_obj, MemberId.ofJson?_toJson h]
  | literal v =>
    simp [toJson, ofJson?, Json.tagged, Json.variant?, carrying?, Json.content?_obj,
      Json.record?_obj, Literal.ofJson?_toJson h hfinite]
  | member target =>
    simp [toJson, ofJson?, Json.tagged, Json.variant?, carrying?, Json.content?_obj,
      Json.record?_obj, MemberTarget.ofJson?_toJson form h]
  | executor runWith job =>
    simp [toJson, ofJson?, Json.tagged, Json.variant?, carrying?, Json.content?_obj,
      Json.record?_obj, NodeId.toOption?_toJson h]

/-- A kind that holds a number that is not finite is not read back. -/
theorem ofJson?_toJson_eq_none {k : NodeKind} (form : Json.VariantForm) (h : k.isFinite = false) :
    ofJson? form k.toJson = none := by
  cases k with
  | literal v =>
    simp [toJson, ofJson?, Json.tagged, Json.variant?, carrying?, Json.content?_obj,
      Json.record?_obj, Literal.ofJson?_toJson_eq_none h]
  | _ => exact Bool.noConfusion h

end NodeKind

def Node.fits (n : Node) : Bool := n.kind.fits && n.container.fits

def Node.isFinite (n : Node) : Bool := n.kind.isFinite

/-- A node is read back if its kind is. -/
theorem Node.ofJson?_toJson {n : Node} (form : Json.VariantForm) (h : n.fits)
    (hfinite : n.isFinite) : ofJson? form n.toJson = some n := by
  obtain ⟨hkind, hcontainer⟩ := Bool.and_eq_true_iff.1 h
  have hports : (Json.list Port.toJson n.ports).toList? (Port.ofJson? form) = some n.ports :=
    Json.toList?_list fun p _ => p.ofJson?_toJson form
  simp [toJson, ofJson?, Json.record?_obj, Json.toString?, hports,
    NodeKind.ofJson?_toJson form hkind hfinite, ContainerId.ofJson?_toJson hcontainer]

/-- A node is not read back if its kind is not. -/
theorem Node.ofJson?_toJson_eq_none {n : Node} (form : Json.VariantForm) (h : n.isFinite = false) :
    ofJson? form n.toJson = none := by
  simp [toJson, ofJson?, Json.record?_obj, Json.toString?, NodeKind.ofJson?_toJson_eq_none form h]

end EntityFlow
