import GossipRing.GossipStatus
import GossipRing.Wire.Message
import GossipRing.Wire.Settings

/-!
# What arrives of a message

Toward: a message brings no claim that was not put into it. Every record is read back as it was
written, but for the claims about nobody, which are left out on the way.

* **`Json.components_bind`** — a record that is written as an object is read from the values of its
  fields, one after the other (`Wire.required_bind`, `Wire.orDefault_bind`).
* **`Change.ofJson?_toJson`** — a claim comes back as it was.
* **`Change.lenientList?_listToJson`** — of a list come back the claims that are `wellFormed`.
* **`JoinRequest.ofJson?_toJson`** and the like — so do the messages with their lists; rows, snapshots
  and settings come back as they were.
* **`Change.named_of_lenientList?`** — no claim that is read in a list is about nobody, however the
  list was written.
-/

namespace GossipRing

open Wire

/-- Fields are found by their names, if these are different. -/
theorem Json.map_lookup {fields : List (String × Json)} (h : (fields.map Prod.fst).Nodup) :
    (fields.map Prod.fst).map (lookup · fields) = fields.map fun field => some field.2 := by
  induction fields with
  | nil => rfl
  | cons field rest ih =>
      obtain ⟨name, value⟩ := field
      obtain ⟨hnew, hrest⟩ := List.nodup_cons.mp h
      rw [List.map_cons, List.map_cons, List.map_cons, ← ih hrest, lookup_cons, if_pos rfl]
      refine congrArg _ (List.map_congr_left fun other hother => ?_)
      rw [lookup_cons, if_neg]
      rintro rfl
      exact hnew hother

/-- **The parts of a record that is written as an object are the values of its fields.** -/
theorem Json.components_obj {names : List String} {fields : List (String × Json)}
    (hnames : fields.map Prod.fst = names) (h : names.Nodup) :
    (obj fields).components names = some (fields.map fun field => some field.2) := by
  subst hnames
  exact congrArg some (map_lookup h)

/-- A record that is written as an object is read from the values of its fields. -/
theorem Json.components_bind {β : Type} {names : List String} {fields : List (String × Json)}
    {next : List (Option Json) → Option β} {b : β} (hnames : fields.map Prod.fst = names)
    (h : names.Nodup) (hnext : next (fields.map fun field => some field.2) = some b) :
    (obj fields).components names >>= next = some b := by
  rw [components_obj hnames h]
  exact hnext

@[simp] theorem Wire.text?_str (s : String) : text? (.str s) = some s := rfl

@[simp] theorem Wire.flag?_bool (b : Bool) : flag? (.bool b) = some b := rfl

/-- An array is read item by item. -/
theorem Wire.list?_map {α : Type} {write : α → Json} {read : Json → Option α}
    (h : ∀ a, read (write a) = some a) (items : List α) :
    list? read (.arr (items.map write)) = some items := by
  induction items with
  | nil => rfl
  | cons a rest ih =>
      have hrest : (rest.map write).mapM read = some rest := ih
      rw [list?, List.map_cons, List.mapM_cons, h, hrest]
      rfl

/-- A field that can be read is read, and what comes after it. -/
theorem Wire.required_bind {α β : Type} {read : Json → Option α} {field : Json} {a : α}
    {rest : α → Option β} {b : β} (hfield : read field = some a) (hrest : rest a = some b) :
    required read (some field) >>= rest = some b := by
  rw [required, hfield]
  exact hrest

theorem Wire.orDefault_bind {α β : Type} {default : α} {read : Json → Option α} {field : Json} {a : α}
    {rest : α → Option β} {b : β} (hfield : read field = some a) (hrest : rest a = some b) :
    orDefault default read (some field) >>= rest = some b := by
  rw [orDefault, hfield]
  exact hrest

@[simp] theorem Status.ofJson?_toJson (s : Status) : Status.ofJson? s.toJson = some s := by
  cases s <;> rfl

theorem GossipStatus.ofJson?_toJson (s : GossipStatus) : GossipStatus.ofJson? s.toJson = some s := by
  cases s <;> rfl

/-! ## Claims -/

namespace Change

/-- A claim comes back as it was, also one about nobody. -/
theorem ofJson?_toJson (c : Change) : ofJson? c.toJson = some c := by
  refine Json.components_bind rfl (by decide) ?_
  dsimp only [List.map]
  refine required_bind (text?_str _) ?_
  refine required_bind (Status.ofJson?_toJson _) ?_
  refine required_bind (word64?_ofWord64 _) ?_
  refine orDefault_bind (text?_str _) ?_
  refine orDefault_bind (word64?_ofWord64 _) ?_
  refine orDefault_bind (word64?_ofWord64 _) ?_
  rfl

/-- The claims that are about somebody. -/
def wellFormed (changes : List Change) : List Change := changes.filter fun c => !c.isMalformed

/-- Leaving out claims about nobody adds none. -/
theorem mem_of_mem_wellFormed {changes : List Change} {c : Change} (h : c ∈ wellFormed changes) :
    c ∈ changes := (List.mem_filter.mp h).1

/-- A claim is well-formed if it names somebody. -/
theorem not_isMalformed_iff {c : Change} : (!c.isMalformed) = true ↔ c.address ≠ "" := by
  rw [Bool.not_eq_true', Bool.eq_false_iff]
  exact not_congr String.isEmpty_iff

/-- Nothing is left out exactly if every claim names somebody. -/
theorem wellFormed_eq_self_iff {changes : List Change} :
    wellFormed changes = changes ↔ ∀ c ∈ changes, c.address ≠ "" := by
  rw [wellFormed, List.filter_eq_self]
  exact forall₂_congr fun c _ => not_isMalformed_iff

/-- **Of a list of claims those about somebody come back.** -/
theorem lenientList?_listToJson (changes : List Change) :
    lenientList? (listToJson changes) = some (wellFormed changes) := by
  have hread : (changes.map toJson).filterMap ofJson? = changes := by
    rw [List.filterMap_map]
    have hsome : ofJson? ∘ toJson = some := funext ofJson?_toJson
    rw [hsome, List.filterMap_some]
  rw [listToJson, lenientList?, hread, wellFormed]

theorem list?_listToJson (changes : List Change) : list? (listToJson changes) = some changes :=
  Wire.list?_map ofJson?_toJson changes

/-- **No claim that is read is about nobody.** -/
theorem named_of_lenientList? {j : Json} {changes : List Change} (h : lenientList? j = some changes) :
    ∀ c ∈ changes, c.address ≠ "" := by
  cases j with
  | arr items =>
      obtain rfl := Option.some.inj h
      exact fun c hc => not_isMalformed_iff.mp (List.mem_filter.mp hc).2
  | _ => cases h

/-- What is read leniently names everybody, also where the field must be there. -/
theorem named_of_required {field : Option Json} {changes : List Change}
    (h : required lenientList? field = some changes) : ∀ c ∈ changes, c.address ≠ "" := by
  cases field with
  | none => cases h
  | some j => exact named_of_lenientList? h

/-- A list that is missing is empty. -/
theorem named_of_orDefault {field : Option Json} {changes : List Change}
    (h : orDefault [] lenientList? field = some changes) : ∀ c ∈ changes, c.address ≠ "" := by
  cases field with
  | none =>
      obtain rfl := Option.some.inj h
      exact fun c hc => absurd hc List.not_mem_nil
  | some j => exact named_of_lenientList? h

end Change

/-! ## Rows, snapshots and settings -/

/-- A member comes back. -/
theorem Member.ofJson?_toJson (m : Member) : Member.ofJson? m.toJson = some m := by
  refine Json.components_bind rfl (by decide) ?_
  dsimp only [List.map]
  refine required_bind (text?_str _) ?_
  refine required_bind (Status.ofJson?_toJson _) ?_
  refine required_bind (word64?_ofWord64 _) ?_
  rfl

/-- A snapshot comes back, with its claims about nobody. -/
theorem Snapshot.ofJson?_toJson (s : Snapshot) : Snapshot.ofJson? s.toJson = some s := by
  refine Json.components_bind rfl (by decide) ?_
  dsimp only [List.map]
  refine orDefault_bind (checksum?_ofChecksum _) ?_
  refine required_bind (Change.list?_listToJson _) ?_
  rfl

/-- The fields of settings are the known ones, in their order. -/
theorem Settings.names_toFields (s : Settings) : s.toFields.map Prod.fst = fieldNames := by
  -- the values stand in the way of `rfl`
  rw [fieldNames, toFields, toFields]
  simp -implicitDefEqProofs only [List.map_cons, List.map_nil]

/-- Durations come back as whole milliseconds. -/
theorem Settings.ofJson?_toJson (s : Settings) : Settings.ofJson? s.toJson = some s.written := by
  refine Json.components_bind s.names_toFields (by decide) ?_
  dsimp only [toFields, List.map]
  refine required_bind (text?_str _) ?_
  refine required_bind (word64?_ofWord64 _) ?_
  refine required_bind (word32?_ofWord32 _) ?_
  iterate 3 refine required_bind (duration?_ofDuration _) ?_
  refine required_bind (word64?_ofWord64 _) ?_
  refine required_bind (duration?_ofDuration _) ?_
  refine required_bind (word64?_ofWord64 _) ?_
  iterate 4 refine required_bind (duration?_ofDuration _) ?_
  rfl

/-! ## Messages -/

theorem JoinRequest.ofJson?_toJson (r : JoinRequest) : JoinRequest.ofJson? r.toJson = some r := by
  refine Json.components_bind rfl (by decide) ?_
  dsimp only [List.map]
  refine required_bind (text?_str _) ?_
  refine required_bind (text?_str _) ?_
  refine required_bind (word64?_ofWord64 _) ?_
  rfl

/-- The answer to a join comes back without its claims about nobody. -/
theorem JoinResponse.ofJson?_toJson (r : JoinResponse) :
    JoinResponse.ofJson? r.toJson = some { r with membership := Change.wellFormed r.membership } := by
  refine Json.components_bind rfl (by decide) ?_
  dsimp only [List.map]
  refine required_bind (text?_str _) ?_
  refine required_bind (text?_str _) ?_
  refine required_bind (Change.lenientList?_listToJson _) ?_
  refine orDefault_bind (checksum?_ofChecksum _) ?_
  rfl

/-- A ping request comes back without its claims about nobody. -/
theorem PingRequest.ofJson?_toJson (r : PingRequest) :
    PingRequest.ofJson? r.toJson = some { r with changes := Change.wellFormed r.changes } := by
  refine Json.components_bind rfl (by decide) ?_
  dsimp only [List.map]
  refine orDefault_bind (checksum?_ofChecksum _) ?_
  refine orDefault_bind (Change.lenientList?_listToJson _) ?_
  refine required_bind (text?_str _) ?_
  refine orDefault_bind (word64?_ofWord64 _) ?_
  rfl

theorem PingResponse.ofJson?_toJson (r : PingResponse) :
    PingResponse.ofJson? r.toJson = some { r with changes := Change.wellFormed r.changes } := by
  refine Json.components_bind rfl (by decide) ?_
  dsimp only [List.map]
  refine orDefault_bind (Change.lenientList?_listToJson _) ?_
  refine orDefault_bind (flag?_bool _) ?_
  rfl

theorem PingReqRequest.ofJson?_toJson (r : PingReqRequest) :
    PingReqRequest.ofJson? r.toJson = some { r with changes := Change.wellFormed r.changes } := by
  refine Json.components_bind rfl (by decide) ?_
  dsimp only [List.map]
  refine orDefault_bind (checksum?_ofChecksum _) ?_
  refine orDefault_bind (Change.lenientList?_listToJson _) ?_
  refine required_bind (text?_str _) ?_
  refine orDefault_bind (word64?_ofWord64 _) ?_
  refine required_bind (text?_str _) ?_
  rfl

theorem PingReqResponse.ofJson?_toJson (r : PingReqResponse) :
    PingReqResponse.ofJson? r.toJson = some { r with changes := Change.wellFormed r.changes } := by
  refine Json.components_bind rfl (by decide) ?_
  dsimp only [List.map]
  refine orDefault_bind (Change.lenientList?_listToJson _) ?_
  refine required_bind (flag?_bool _) ?_
  refine orDefault_bind (text?_str _) ?_
  rfl

/-! ## What has been read -/

section

variable {j : Json}

/-- **No message that was read speaks of nobody.** Its claims went through the lenient reader, and the
    other fields have no part in it. -/
theorem JoinResponse.named_of_ofJson? {r : JoinResponse} (h : JoinResponse.ofJson? j = some r) :
    ∀ c ∈ r.membership, c.address ≠ "" := by
  rw [ofJson?, Option.bind_eq_bind, Option.bind_eq_some_iff] at h
  obtain ⟨parts, -, h⟩ := h
  split at h
  · simp only [Option.bind_eq_bind, Option.bind_eq_some_iff] at h
    obtain ⟨_, -, _, -, claims, hclaims, _, -, h⟩ := h
    obtain rfl := Option.some.inj h
    exact Change.named_of_required hclaims
  · cases h

theorem PingRequest.named_of_ofJson? {r : PingRequest} (h : PingRequest.ofJson? j = some r) :
    ∀ c ∈ r.changes, c.address ≠ "" := by
  rw [ofJson?, Option.bind_eq_bind, Option.bind_eq_some_iff] at h
  obtain ⟨parts, -, h⟩ := h
  split at h
  · simp only [Option.bind_eq_bind, Option.bind_eq_some_iff] at h
    obtain ⟨_, -, claims, hclaims, _, -, _, -, h⟩ := h
    obtain rfl := Option.some.inj h
    exact Change.named_of_orDefault hclaims
  · cases h

theorem PingResponse.named_of_ofJson? {r : PingResponse} (h : PingResponse.ofJson? j = some r) :
    ∀ c ∈ r.changes, c.address ≠ "" := by
  rw [ofJson?, Option.bind_eq_bind, Option.bind_eq_some_iff] at h
  obtain ⟨parts, -, h⟩ := h
  split at h
  · simp only [Option.bind_eq_bind, Option.bind_eq_some_iff] at h
    obtain ⟨claims, hclaims, _, -, h⟩ := h
    obtain rfl := Option.some.inj h
    exact Change.named_of_orDefault hclaims
  · cases h

theorem PingReqRequest.named_of_ofJson? {r : PingReqRequest} (h : PingReqRequest.ofJson? j = some r) :
    ∀ c ∈ r.changes, c.address ≠ "" := by
  rw [ofJson?, Option.bind_eq_bind, Option.bind_eq_some_iff] at h
  obtain ⟨parts, -, h⟩ := h
  split at h
  · simp only [Option.bind_eq_bind, Option.bind_eq_some_iff] at h
    obtain ⟨_, -, claims, hclaims, _, -, _, -, _, -, h⟩ := h
    obtain rfl := Option.some.inj h
    exact Change.named_of_orDefault hclaims
  · cases h

theorem PingReqResponse.named_of_ofJson? {r : PingReqResponse} (h : PingReqResponse.ofJson? j = some r) :
    ∀ c ∈ r.changes, c.address ≠ "" := by
  rw [ofJson?, Option.bind_eq_bind, Option.bind_eq_some_iff] at h
  obtain ⟨parts, -, h⟩ := h
  split at h
  · simp only [Option.bind_eq_bind, Option.bind_eq_some_iff] at h
    obtain ⟨claims, hclaims, _, -, _, -, h⟩ := h
    obtain rfl := Option.some.inj h
    exact Change.named_of_orDefault hclaims
  · cases h

/-- A duration that is read is whole. -/
theorem Duration.isWhole_of_required {field : Option Json} {d : Duration}
    (h : required duration? field = some d) : d.IsWhole := by
  cases field with
  | none => cases h
  | some j =>
      obtain ⟨n, -, rfl⟩ := Option.map_eq_some_iff.mp h
      exact isWhole_ofMillis n

/-- Durations that were read are whole, so settings that were read are. -/
theorem Settings.isWhole_of_ofJson? {s : Settings} (h : Settings.ofJson? j = some s) : s.IsWhole := by
  obtain ⟨parts, -, h⟩ := Option.bind_eq_some_iff.mp h
  split at h
  · iterate 3 obtain ⟨_, -, h⟩ := Option.bind_eq_some_iff.mp h
    obtain ⟨_, hsuspicion, h⟩ := Option.bind_eq_some_iff.mp h
    obtain ⟨_, hping, h⟩ := Option.bind_eq_some_iff.mp h
    obtain ⟨_, hpingReq, h⟩ := Option.bind_eq_some_iff.mp h
    obtain ⟨_, -, h⟩ := Option.bind_eq_some_iff.mp h
    obtain ⟨_, hperiod, h⟩ := Option.bind_eq_some_iff.mp h
    obtain ⟨_, -, h⟩ := Option.bind_eq_some_iff.mp h
    obtain ⟨_, hlongest, h⟩ := Option.bind_eq_some_iff.mp h
    obtain ⟨_, hjoin, h⟩ := Option.bind_eq_some_iff.mp h
    obtain ⟨_, hdelay, h⟩ := Option.bind_eq_some_iff.mp h
    obtain ⟨_, hmaxDelay, h⟩ := Option.bind_eq_some_iff.mp h
    obtain rfl := Option.some.inj h
    -- the durations, in the order of the fields
    refine List.forall_mem_cons.mpr ⟨Duration.isWhole_of_required hsuspicion, ?_⟩
    refine List.forall_mem_cons.mpr ⟨Duration.isWhole_of_required hping, ?_⟩
    refine List.forall_mem_cons.mpr ⟨Duration.isWhole_of_required hpingReq, ?_⟩
    refine List.forall_mem_cons.mpr ⟨Duration.isWhole_of_required hperiod, ?_⟩
    refine List.forall_mem_cons.mpr ⟨Duration.isWhole_of_required hlongest, ?_⟩
    refine List.forall_mem_cons.mpr ⟨Duration.isWhole_of_required hjoin, ?_⟩
    refine List.forall_mem_cons.mpr ⟨Duration.isWhole_of_required hdelay, ?_⟩
    exact List.forall_mem_singleton.mpr (Duration.isWhole_of_required hmaxDelay)
  · cases h

end

end GossipRing
