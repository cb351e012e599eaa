import GossipRing.Proofs.Retransmission
import GossipRing.Proofs.SuspicionTimers
import GossipRing.Proofs.WireFormats

/-!
# Settings of a running node

Toward: a node goes by its settings, whatever is done to it, and a patch changes what it names and
nothing else.

A patch is laid over the settings in their written form, and the whole is read again. Here it is
read field by field instead.

* **`Settings.Kind`** — the kinds of values, each with the form in which it is written and what comes
  back of it. **`Settings.Field`** — the fields of settings, each with its kind and its name.
* **`Settings.patched`** — the settings with the values that a patch has for some fields. The others are
  written and read again, and durations lose what milliseconds in 64 bits do not tell.
* **`Settings.overlay?_eq_some_iff`** — the two agree: the whole can be read exactly if every value of
  the patch can, and is then the settings with these values.
* **`Settings.Fits`** — what a patch has to satisfy. **`Node.configure_eq_ok_iff`** — nothing else is
  asked of it.
* **`Node.Reconfigured`** — only a patch changes settings, and what goes by them; so of every act
  (`Process.reconfigured_of_act`).
* **`Node.Attuned`** — the settings are valid, and the ring, the claims that wait and the timers go by
  them. Every act keeps this (`Process.attuned_persist`), and keeps durations whole
  (`Process.isWhole_persist`).
-/

namespace GossipRing

open Wire

namespace Settings

/-! ## Field by field -/

/-- The kinds of values that fields have. -/
inductive Kind where
  | text
  | word32
  | word64
  | duration
  deriving DecidableEq, Repr

namespace Kind

/-- The values of a kind. -/
abbrev Value : Kind → Type
  | text => String
  | word32 => UInt32
  | word64 => UInt64
  | duration => Duration

/-- The value that is read, if there is one. -/
def read? : (k : Kind) → Json → Option k.Value
  | text => text?
  | word32 => word32?
  | word64 => word64?
  | duration => duration?

/-- What is written of a value. -/
def write : (k : Kind) → k.Value → Json
  | text => .str
  | word32 => ofWord32
  | word64 => ofWord64
  | duration => ofDuration

/-- What comes back of a value that is written. -/
def written : (k : Kind) → k.Value → k.Value
  | duration, d => d.written
  | _, value => value

/-- **What is written is read again**, as far as it can be written. -/
theorem read?_write (k : Kind) (value : k.Value) : k.read? (k.write value) = some (k.written value) := by
  cases k with
  | text => rfl
  | word32 => exact word32?_ofWord32 value
  | word64 => exact word64?_ofWord64 value
  | duration => exact duration?_ofDuration value

/-- Nothing more is lost when a value is written again. -/
theorem written_written (k : Kind) (value : k.Value) : k.written (k.written value) = k.written value := by
  cases k with
  | duration => exact Duration.isWhole_ofMillis (Duration.millis value)
  | _ => rfl

/-- Nothing is lost of a value that was read. -/
theorem written_of_read? {k : Kind} {j : Json} {value : k.Value} (h : k.read? j = some value) :
    k.written value = value := by
  cases k with
  | duration =>
      obtain ⟨millis, -, rfl⟩ := Option.map_eq_some_iff.mp h
      exact Duration.isWhole_ofMillis millis
  | _ => rfl

end Kind

/-- The fields of settings. -/
inductive Field where
  | app
  | replicaPoints
  | maxPiggybackCount
  | suspicionTimeout
  | pingTimeout
  | pingReqTimeout
  | pingReqSize
  | protocolPeriod
  | joinSize
  | maxJoinDuration
  | joinTimeout
  | joinDelay
  | maxJoinDelay
  deriving DecidableEq, Repr

namespace Field

/-- All fields, in the order of the record. -/
def all : List Field :=
  [app, replicaPoints, maxPiggybackCount, suspicionTimeout, pingTimeout, pingReqTimeout, pingReqSize,
    protocolPeriod, joinSize, maxJoinDuration, joinTimeout, joinDelay, maxJoinDelay]

/-- The name that a field has on the wire. -/
def name : Field → String
  | app => "app"
  | replicaPoints => "replicaPoints"
  | maxPiggybackCount => "maxPiggybackCount"
  | suspicionTimeout => "suspicionTimeout"
  | pingTimeout => "pingTimeout"
  | pingReqTimeout => "pingReqTimeout"
  | pingReqSize => "pingReqSize"
  | protocolPeriod => "protocolPeriod"
  | joinSize => "joinSize"
  | maxJoinDuration => "maxJoinDuration"
  | joinTimeout => "joinTimeout"
  | joinDelay => "joinDelay"
  | maxJoinDelay => "maxJoinDelay"

/-- Which values a field has. -/
abbrev kind : Field → Kind
  | app => .text
  | maxPiggybackCount => .word32
  | replicaPoints => .word64
  | pingReqSize => .word64
  | joinSize => .word64
  | _ => .duration

/-- The values of a field. -/
abbrev Value (f : Field) : Type := f.kind.Value

theorem mem_all (f : Field) : f ∈ all := by cases f <;> decide

end Field

/-- The value of a field. -/
def get (s : Settings) : (f : Field) → f.Value
  | .app => s.app
  | .replicaPoints => s.replicaPoints
  | .maxPiggybackCount => s.maxPiggybackCount
  | .suspicionTimeout => s.suspicionTimeout
  | .pingTimeout => s.pingTimeout
  | .pingReqTimeout => s.pingReqTimeout
  | .pingReqSize => s.pingReqSize
  | .protocolPeriod => s.protocolPeriod
  | .joinSize => s.joinSize
  | .maxJoinDuration => s.maxJoinDuration
  | .joinTimeout => s.joinTimeout
  | .joinDelay => s.joinDelay
  | .maxJoinDelay => s.maxJoinDelay

/-- The settings with these values. -/
def ofValues (values : (f : Field) → f.Value) : Settings where
  app := values .app
  replicaPoints := values .replicaPoints
  maxPiggybackCount := values .maxPiggybackCount
  suspicionTimeout := values .suspicionTimeout
  pingTimeout := values .pingTimeout
  pingReqTimeout := values .pingReqTimeout
  pingReqSize := values .pingReqSize
  protocolPeriod := values .protocolPeriod
  joinSize := values .joinSize
  maxJoinDuration := values .maxJoinDuration
  joinTimeout := values .joinTimeout
  joinDelay := values .joinDelay
  maxJoinDelay := values .maxJoinDelay

/-- The settings with the values that are given for some fields, and for the others what comes back of
    theirs. A value that cannot be read counts as not given. -/
def patched (s : Settings) (fields : List (String × Json)) : Settings :=
  ofValues fun f => ((Json.lookup f.name fields).bind f.kind.read?).getD (f.kind.written (s.get f))

theorem get_ofValues (values : (f : Field) → f.Value) (f : Field) :
    (ofValues values).get f = values f := by
  cases f <;> rfl

/-- Settings are known by their fields. -/
theorem ext_get {s s' : Settings} (h : ∀ f, s.get f = s'.get f) : s = s' :=
  (congrArg ofValues (funext h) : ofValues s.get = ofValues s'.get)

theorem get_written (s : Settings) (f : Field) : s.written.get f = f.kind.written (s.get f) := by
  cases f <;> rfl

/-- Of whole milliseconds nothing is lost in any field. -/
theorem IsWhole.written_get {s : Settings} (h : s.IsWhole) (f : Field) :
    f.kind.written (s.get f) = s.get f := by
  rw [← get_written, written_eq_self_iff.mpr h]

/-- Settings are written field by field, in the order of the list. -/
theorem toFields_eq (s : Settings) :
    s.toFields = Field.all.map fun f => (f.name, f.kind.write (s.get f)) := rfl

/-- The names that settings know are those of the fields. -/
theorem mem_fieldNames {name : String} : name ∈ fieldNames ↔ ∃ f : Field, f.name = name := by
  rw [fieldNames, toFields_eq, List.map_map, List.mem_map]
  exact exists_congr fun f => and_iff_right f.mem_all

/-! ## A patch, field by field -/

variable {s merged : Settings} {fields : List (String × Json)}

/-- What is read for a field: the value that is given, or else what was written of the settings. -/
def slot (s : Settings) (fields : List (String × Json)) (f : Field) : Json :=
  (Json.lookup f.name fields).getD (f.kind.write (s.get f))

/-- **The whole is read field by field.** -/
theorem overlay?_eq_some_iff :
    s.overlay? fields = some merged ↔
      ∀ f : Field, f.kind.read? (s.slot fields f) = some (merged.get f) := by
  have hnames : (s.toFields.map fun field =>
      (field.1, (Json.lookup field.1 fields).getD field.2)).map Prod.fst = fieldNames := by
    rw [List.map_map]
    exact s.names_toFields
  -- all names are there and differ, so that reading comes down to the fields one after the other
  rw [overlay?, ofJson?, Json.components_obj hnames (by decide), Option.bind_eq_bind, Option.bind_some]
  rw [toFields_eq, List.map_map, List.map_map]
  constructor
  · intro hread
    -- one value for each of the thirteen fields
    iterate 13 obtain ⟨_, _, hread⟩ := Option.bind_eq_some_iff.mp hread
    obtain rfl := Option.some.inj hread
    intro f
    cases f <;> assumption
  · intro hread
    refine required_bind (hread .app) ?_
    refine required_bind (hread .replicaPoints) ?_
    refine required_bind (hread .maxPiggybackCount) ?_
    refine required_bind (hread .suspicionTimeout) ?_
    refine required_bind (hread .pingTimeout) ?_
    refine required_bind (hread .pingReqTimeout) ?_
    refine required_bind (hread .pingReqSize) ?_
    refine required_bind (hread .protocolPeriod) ?_
    refine required_bind (hread .joinSize) ?_
    refine required_bind (hread .maxJoinDuration) ?_
    refine required_bind (hread .joinTimeout) ?_
    refine required_bind (hread .joinDelay) ?_
    refine required_bind (hread .maxJoinDelay) ?_
    rfl

/-- A field that is given has the given value, and any other comes back as it is written. -/
theorem get_patched (s : Settings) (fields : List (String × Json)) (f : Field) :
    (s.patched fields).get f =
      ((Json.lookup f.name fields).bind f.kind.read?).getD (f.kind.written (s.get f)) :=
  get_ofValues _ f

/-- **Patched settings are whole**, whatever the settings were before. -/
theorem isWhole_patched (s : Settings) (fields : List (String × Json)) : (s.patched fields).IsWhole := by
  refine written_eq_self_iff.mp (ext_get fun f => ?_)
  rw [get_written, get_patched]
  cases hread : (Json.lookup f.name fields).bind f.kind.read? with
  | none => exact f.kind.written_written (s.get f)
  | some value =>
      obtain ⟨j, -, hj⟩ := Option.bind_eq_some_iff.mp hread
      exact Kind.written_of_read? hj

/-- Every value that is given can be read. -/
def Readable (fields : List (String × Json)) : Prop :=
  ∀ (f : Field) (value : Json), Json.lookup f.name fields = some value → (f.kind.read? value).isSome

/-- What stands at a field when given and written values are laid over each other can be read, if what
    was given can be. -/
theorem read?_slot (h : Readable fields) (f : Field) :
    f.kind.read? (s.slot fields f) = some ((s.patched fields).get f) := by
  rw [slot, get_patched]
  cases hgiven : Json.lookup f.name fields with
  | none => exact f.kind.read?_write (s.get f)
  | some value =>
      obtain ⟨v, hv⟩ := Option.isSome_iff_exists.mp (h f value hgiven)
      rw [Option.getD_some, Option.bind_some, hv, Option.getD_some]

/-- **The settings are laid under a patch exactly if all its values can be read**, and then they take
    these values. -/
theorem overlay?_eq_some_iff_patched :
    s.overlay? fields = some merged ↔ Readable fields ∧ merged = s.patched fields := by
  rw [overlay?_eq_some_iff]
  constructor
  · intro hread
    have hreadable : Readable fields := by
      intro f value hgiven
      have hslot := hread f
      rw [slot, hgiven, Option.getD_some] at hslot
      rw [hslot, Option.isSome_some]
    exact ⟨hreadable, ext_get fun f => Option.some.inj ((hread f).symm.trans (read?_slot hreadable f))⟩
  · rintro ⟨hreadable, rfl⟩ f
    exact read?_slot hreadable f

/-- No name is unknown exactly if each is that of a field. -/
theorem unknownField?_eq_none_iff :
    unknownField? fields = none ↔ ∀ field ∈ fields, ∃ f : Field, f.name = field.1 := by
  rw [unknownField?, List.head?_eq_none_iff, ← List.length_eq_zero_iff, List.length_mergeSort,
    List.length_eq_zero_iff, List.filter_eq_nil_iff]
  simp only [List.forall_mem_map, ← mem_fieldNames, Bool.not_eq_true', Bool.not_eq_false,
    List.contains_iff_mem]

/-- Settings pass their check unchanged, or not at all. -/
theorem validate_eq_ok_iff {s' : Settings} : s.validate = .ok s' ↔ s.IsValid ∧ s' = s := by
  rw [validate, IsValid]
  cases s.fault? with
  | some reason =>
      constructor
      · intro h
        cases h
      · rintro ⟨h, -⟩
        cases h
  | none => exact ⟨fun h => ⟨rfl, (Except.ok.inj h).symm⟩, fun h => congrArg Except.ok h.2.symm⟩

/-- What is asked of the fields of a patch: they are known, their values can be read, and the outcome
    is settings that a node accepts, with as many positions for each server as before. -/
structure Fits (s : Settings) (fields : List (String × Json)) : Prop where
  known : ∀ field ∈ fields, ∃ f : Field, f.name = field.1
  readable : Readable fields
  valid : (s.patched fields).IsValid
  replicaPoints : (s.patched fields).replicaPoints = s.replicaPoints

/-- A patch is merged if it is an object, and all but the number of positions fits. -/
theorem merge_eq_ok_iff {patch : Json} :
    s.merge patch = .ok merged ↔ ∃ fields, patch = .obj fields ∧
      (∀ field ∈ fields, ∃ f : Field, f.name = field.1) ∧ Readable fields ∧
      (s.patched fields).IsValid ∧ merged = s.patched fields := by
  cases patch with
  | obj fields =>
      -- the three checks one after the other: all names known, all values readable, the whole valid
      have hmerge : s.merge (.obj fields) = .ok merged ↔ unknownField? fields = none ∧
          ∃ read, s.overlay? fields = some read ∧ read.validate = .ok merged := by
        rw [merge]
        cases unknownField? fields with
        | some name =>
            constructor
            · intro h
              cases h
            · rintro ⟨h, -⟩
              cases h
        | none =>
            -- a value that cannot be read is refused whatever the others are
            cases s.overlay? fields with
            | none =>
                constructor
                · intro h
                  cases h
                · rintro ⟨-, _, h, -⟩
                  cases h
            | some read =>
                refine ⟨fun h => ⟨rfl, read, rfl, h⟩, ?_⟩
                rintro ⟨-, _, hread, h⟩
                obtain rfl := Option.some.inj hread
                exact h
      rw [hmerge, unknownField?_eq_none_iff]
      constructor
      · rintro ⟨hknown, read, hread, haccepted⟩
        obtain ⟨hreadable, rfl⟩ := overlay?_eq_some_iff_patched.mp hread
        obtain ⟨hvalid, rfl⟩ := validate_eq_ok_iff.mp haccepted
        exact ⟨fields, rfl, hknown, hreadable, hvalid, rfl⟩
      · rintro ⟨_, hfields, hknown, hreadable, hvalid, rfl⟩
        obtain rfl := Json.obj.inj hfields
        exact ⟨hknown, _, overlay?_eq_some_iff_patched.mpr ⟨hreadable, rfl⟩,
          validate_eq_ok_iff.mpr ⟨hvalid, rfl⟩⟩
  -- settings are changed by an object only
  | _ =>
      constructor
      · intro h
        cases h
      · rintro ⟨_, h, -⟩
        cases h

end Settings

/-! ## The node -/

namespace Node

variable {now : Moment} {n n' : Node} {move : Move}

/-- The node with these settings, which the claims that wait and the timers go by from now on. -/
def withSettings (n : Node) (settings : Settings) : Node :=
  { n with
    settings := settings
    piggyback := { n.piggyback with limit := settings.maxPiggybackCount }
    suspicion := { n.suspicion with timeout := settings.suspicionTimeout } }

/-- A patch that is merged is accepted if it leaves the number of positions alone. -/
theorem configure_eq_ok_iff_merge {patch : Json} :
    n.configure patch = .ok n' ↔ ∃ merged, n.settings.merge patch = .ok merged ∧
      merged.replicaPoints = n.settings.replicaPoints ∧ n' = n.withSettings merged := by
  rw [configure]
  cases n.settings.merge patch with
  | error e =>
      constructor
      · intro h
        cases h
      · rintro ⟨_, h, -⟩
        cases h
  | ok merged =>
      dsimp only
      split
      · next hpoints =>
        constructor
        · intro h
          cases h
        · rintro ⟨_, hmerged, hsame, -⟩
          obtain rfl := Except.ok.inj hmerged
          exact absurd hsame hpoints
      · next hpoints =>
        constructor
        · exact fun h => ⟨merged, rfl, not_not.mp hpoints, (Except.ok.inj h).symm⟩
        · rintro ⟨_, hmerged, -, rfl⟩
          obtain rfl := Except.ok.inj hmerged
          rfl

/-- What cannot be merged is refused for the reason that the merge gives. -/
theorem configure_of_merge_eq_error {patch : Json} {e : NodeError}
    (h : n.settings.merge patch = .error e) : n.configure patch = .error e := by
  rw [configure, h]

/-- **A patch is accepted exactly if it fits**, and then the node goes by the patched settings. -/
theorem configure_eq_ok_iff {patch : Json} :
    n.configure patch = .ok n' ↔ ∃ fields, patch = .obj fields ∧ n.settings.Fits fields ∧
      n' = n.withSettings (n.settings.patched fields) := by
  rw [configure_eq_ok_iff_merge]
  constructor
  · rintro ⟨merged, hmerge, hpoints, rfl⟩
    obtain ⟨fields, rfl, hknown, hreadable, hvalid, rfl⟩ := Settings.merge_eq_ok_iff.mp hmerge
    exact ⟨fields, rfl, ⟨hknown, hreadable, hvalid, hpoints⟩, rfl⟩
  · rintro ⟨fields, rfl, hfits, rfl⟩
    exact ⟨_, Settings.merge_eq_ok_iff.mpr
      ⟨fields, rfl, hfits.known, hfits.readable, hfits.valid, rfl⟩, hfits.replicaPoints, rfl⟩

/-- The settings are valid, and the ring, the claims that wait and the timers go by them. -/
structure Attuned (n : Node) : Prop where
  valid : n.settings.IsValid
  replicaPoints : n.ring.replicaPoints = n.settings.replicaPoints.toNat
  limit : n.piggyback.limit = n.settings.maxPiggybackCount
  timeout : n.suspicion.timeout = n.settings.suspicionTimeout

/-- The settings are as they were, and what the rest of the node goes by. -/
structure Retains (n n' : Node) : Prop where
  settings : n'.settings = n.settings
  replicaPoints : n'.ring.replicaPoints = n.ring.replicaPoints
  limit : n'.piggyback.limit = n.piggyback.limit
  timeout : n'.suspicion.timeout = n.suspicion.timeout

theorem Retains.refl (n : Node) : Retains n n := ⟨rfl, rfl, rfl, rfl⟩

theorem Retains.trans {between : Node} (h : n.Retains between) (h' : between.Retains n') :
    n.Retains n' where
  settings := h'.settings.trans h.settings
  replicaPoints := h'.replicaPoints.trans h.replicaPoints
  limit := h'.limit.trans h.limit
  timeout := h'.timeout.trans h.timeout

/-- The settings are as they were, and what goes by them, or a patch was accepted. -/
inductive Reconfigured (n n' : Node) : Prop
  | retain (h : n.Retains n')
  | patch {between : Node} {patch : Json} (h : n.Retains between)
      (hconfigure : between.configure patch = .ok n')

/-- A node that keeps its settings, and what goes by them, stays attuned. -/
theorem Attuned.retain (h : n.Attuned) (hretains : n.Retains n') : n'.Attuned where
  valid := hretains.settings.symm ▸ h.valid
  replicaPoints := by rw [hretains.replicaPoints, hretains.settings, h.replicaPoints]
  limit := by rw [hretains.limit, hretains.settings, h.limit]
  timeout := by rw [hretains.timeout, hretains.settings, h.timeout]

/-- The rest of the node goes by new settings at once; the ring keeps its positions. -/
theorem Attuned.configure {patch : Json} (h : n.Attuned) (hconfigure : n.configure patch = .ok n') :
    n'.Attuned := by
  obtain ⟨fields, -, hfits, rfl⟩ := configure_eq_ok_iff.mp hconfigure
  refine ⟨hfits.valid, ?_, rfl, rfl⟩
  exact h.replicaPoints.trans (congrArg UInt64.toNat hfits.replicaPoints.symm)

theorem attuned_createWith {hash : HashFunction} {address : String} {settings : Settings}
    {chance : Chance} (h : createWith hash address settings chance = .ok n) : n.Attuned := by
  obtain ⟨hvalid, rfl⟩ := createWith_eq_ok h
  exact ⟨hvalid, rfl, rfl, rfl⟩

/-- Starting and stopping timers leaves their length alone. -/
theorem timeout_track (elapsed : Nat) (s : Suspicion) (c : Change) :
    (track elapsed s c).timeout = s.timeout := by
  rw [track, Suspicion.start]
  split
  · split <;> rfl
  · rfl

theorem timeout_foldl_track (elapsed : Nat) (s : Suspicion) (effects : List Change) :
    (effects.foldl (track elapsed) s).timeout = s.timeout := by
  induction effects generalizing s with
  | nil => rfl
  | cons c rest ih => rw [List.foldl_cons, ih, timeout_track]

/-- Effects are spread without a look at the settings. -/
theorem Retains.spread (n : Node) (now : Moment) (effects : List Change) :
    n.Retains (n.spread now effects) where
  settings := settings_spread n now effects
  replicaPoints := by rw [ring_spread, (Ring.points_run _ _).2.1]
  limit := by rw [piggyback_spread, Piggyback.limit_recordAll]
  timeout := by rw [suspicion_spread, timeout_foldl_track]

/-- **An operation on the table leaves the settings alone**, whether it is completed or stops. -/
theorem Retains.settle (n : Node) (now : Moment) (outcome : Attempt Membership (List Change)) :
    n.Retains (n.settle now outcome).state := by
  cases outcome with
  | exhausted m => exact ⟨rfl, rfl, rfl, rfl⟩
  | done m effects =>
      have hspread := Retains.spread { n with membership := m } now effects
      exact ⟨hspread.settings, hspread.replicaPoints, hspread.limit, hspread.timeout⟩

theorem Retains.settled {outcome : Attempt Membership (List Change)} {effects : List Change}
    (h : n.settle now outcome = .done n' effects) : n.Retains n' := by
  have hretains := Retains.settle n now outcome
  rw [h] at hretains
  exact hretains

/-- An expiry takes a timer away, and leaves the settings alone. -/
theorem Retains.claim (n : Node) (e : Expiry) :
    n.Retains { n with suspicion := (n.suspicion.claim e).1 } := by
  refine ⟨rfl, rfl, rfl, ?_⟩
  rw [Suspicion.claim]
  dsimp only
  split <;> rfl

theorem Heeds.retains (h : Heeds now n n') : n.Retains n' := by
  rcases h with rfl | ⟨op, effects, -, hsettle⟩
  · exact .refl n'
  · exact .settled hsettle

theorem Retains.stopped {outcome : Attempt Membership (List Change)}
    (h : n.settle now outcome = .exhausted n') : n.Retains n' := by
  have hretains := Retains.settle n now outcome
  rw [h] at hretains
  exact hretains

theorem Stops.retains (h : Stops now n n') : n.Retains n' := by
  cases h with
  | fresh _ => exact .refl n
  | settle op _ hsettle => exact .stopped hsettle

/-- **A stretch changes settings only by a patch that is accepted.** -/
theorem Adjusts.retains (h : n.Adjusts move n') :
    n.Retains n' ∨ ∃ patch, move = .configure patch ∧ n.configure patch = .ok n' := by
  cases h with
  | configure hconfigure => exact Or.inr ⟨_, rfl, hconfigure⟩
  | rejoin =>
      rw [startGossip]
      split
      all_goals exact Or.inl ⟨rfl, rfl, rfl, rfl⟩
  | _ => exact Or.inl ⟨rfl, rfl, rfl, rfl⟩

/-- **A stretch takes new settings on, or keeps the old ones.** -/
theorem reconfigured_of_perform (hperform : move.perform now n = .done n' ()) : n.Reconfigured n' := by
  obtain ⟨n₁, hheeds, hadjusts⟩ := adjusts_of_perform hperform
  rcases hadjusts.retains with hretains | ⟨_, -, hconfigure⟩
  · exact .retain (hheeds.retains.trans hretains)
  · exact .patch hheeds.retains hconfigure

theorem Attuned.reconfigured (h : n.Attuned) (hreconfigured : n.Reconfigured n') : n'.Attuned := by
  cases hreconfigured with
  | retain hretains => exact h.retain hretains
  | patch hretains hconfigure => exact (h.retain hretains).configure hconfigure

/-- Whole durations stay whole, and an accepted patch leaves no others. -/
theorem isWhole_of_reconfigured (h : n.settings.IsWhole) (hreconfigured : n.Reconfigured n') :
    n'.settings.IsWhole := by
  cases hreconfigured with
  | retain hretains => exact hretains.settings.symm ▸ h
  | patch _ hconfigure =>
      obtain ⟨fields, -, -, rfl⟩ := configure_eq_ok_iff.mp hconfigure
      exact Settings.isWhole_patched _ fields

end Node

/-! ## Every act -/

namespace Process

variable {now : Moment} {p q : Process}

/-- An act takes new settings on, or keeps the old ones: only stretches are given new settings. -/
theorem reconfigured_of_step (hstep : Step now p q) : p.node.Reconfigured q.node := by
  cases hstep with
  | idle => exact .retain (.refl _)
  | move hperform => exact Node.reconfigured_of_perform hperform
  | enter _ => exact .retain ⟨rfl, rfl, rfl, rfl⟩
  | announce _ hassert => exact .retain (.settled hassert)
  | fail _ => exact .retain ⟨rfl, rfl, rfl, rfl⟩
  | @complete _ snapshots _ _ _ hcomplete =>
      exact .retain
        ((Node.Retains.settled (p.node.settle_adopt now snapshots)).trans (.settled hcomplete))
  | runOut => exact .retain ⟨rfl, rfl, rfl, rfl⟩
  | @expire e _ _ _ _ hassert => exact .retain ((Node.Retains.claim p.node e).trans (.settled hassert))

/-- **No act changes settings but by a patch that is accepted**, whether it is completed or stops. -/
theorem reconfigured_of_act (p : Process) (now : Moment) (act : Act) :
    p.node.Reconfigured (act.perform now p).state.node := by
  cases hact : act.perform now p with
  | done q out => exact reconfigured_of_step (step_of_perform hact)
  | exhausted q =>
      cases halts_of_perform hact with
      | move hstops => exact .retain hstops.retains
      | announce _ hstops => exact .retain hstops.retains
      | @complete _ snapshots _ _ hcomplete =>
          exact .retain ((Node.Retains.settled (p.node.settle_adopt now snapshots)).trans
            (.stopped hcomplete))
      | @expire e _ hstops => exact .retain ((Node.Retains.claim p.node e).trans hstops.retains)

/-- What an accepted patch keeps holds for good. -/
theorem of_reconfigured {P : Node → Prop} (hkeeps : ∀ n n', P n → n.Reconfigured n' → P n')
    (h : P p.node) (acts : List (Moment × Act)) : P (p.persist acts).node := by
  induction acts generalizing p with
  | nil => exact h
  | cons entry rest ih => exact ih (hkeeps _ _ h (reconfigured_of_act p entry.1 entry.2))

/-- **A node is attuned after every run**, and so it is where acts have stopped. -/
theorem attuned_persist (h : p.node.Attuned) (acts : List (Moment × Act)) :
    (p.persist acts).node.Attuned :=
  of_reconfigured (fun _ _ hn hstep => hn.reconfigured hstep) h acts

/-- What has no part of a millisecond at first has none later. -/
theorem isWhole_persist (h : p.node.settings.IsWhole) (acts : List (Moment × Act)) :
    (p.persist acts).node.settings.IsWhole :=
  of_reconfigured (fun _ _ hn hstep => Node.isWhole_of_reconfigured hn hstep) h acts

/-- **A node goes by its settings, and a patch changes what it names and nothing else.**

    Whatever happens to a new node, in any order, and also after an act that has stopped: its settings are
    valid, the ring gives each server as many positions as they say, and the claims that wait and the
    timers have their limit and their timeout. A patch is accepted exactly if it is an object, every field
    of it is known, every value of it can be read, and the outcome is valid and has as many positions as
    before. Then each field that is given has the value that was read, and every other field has what
    comes back of its value: if the durations that the node was created with are whole milliseconds, fewer
    than 2^64, this is the value it had. The rest of the node is as it was. A patch that is not accepted
    changes nothing. -/
theorem settings_govern {hash : HashFunction} {address : String} {settings : Settings} {chance : Chance}
    {node : Node} (hnode : Node.createWith hash address settings chance = .ok node)
    (acts : List (Moment × Act)) {p : Process} (hp : (start node).persist acts = p) :
    p.node.Attuned ∧
    ∀ (patch : Json) (now : Moment),
      ((∃ n, p.node.configure patch = .ok n) ↔
        ∃ fields, patch = .obj fields ∧ p.node.settings.Fits fields) ∧
      (∀ n, p.node.configure patch = .ok n →
        (Act.move (.configure patch)).perform now p = .done (p.withNode n) () ∧
        n = p.node.withSettings n.settings ∧
        ∃ fields, patch = .obj fields ∧ ∀ f : Settings.Field,
          (∀ value, Json.lookup f.name fields = some value →
            f.kind.read? value = some (n.settings.get f)) ∧
          (Json.lookup f.name fields = none →
            n.settings.get f = f.kind.written (p.node.settings.get f) ∧
            (settings.IsWhole → n.settings.get f = p.node.settings.get f))) ∧
      (∀ e, p.node.configure patch = .error e →
        (Act.move (.configure patch)).perform now p = .done p ()) := by
  -- whole from the start, the settings are whole now, so that all fields come back
  have hwhole : settings.IsWhole → p.node.settings.IsWhole := by
    intro h
    have hstart : (start node).node.settings.IsWhole := by
      obtain ⟨-, rfl⟩ := Node.createWith_eq_ok hnode
      exact h
    exact hp ▸ isWhole_persist hstart acts
  have hattuned : p.node.Attuned := hp ▸ attuned_persist (Node.attuned_createWith hnode) acts
  refine ⟨hattuned, fun patch now => ⟨?_, ?_, ?_⟩⟩
  · constructor
    · rintro ⟨n, hconfigure⟩
      obtain ⟨fields, hpatch, hfits, -⟩ := Node.configure_eq_ok_iff.mp hconfigure
      exact ⟨fields, hpatch, hfits⟩
    · rintro ⟨fields, hpatch, hfits⟩
      exact ⟨_, Node.configure_eq_ok_iff.mpr ⟨fields, hpatch, hfits, rfl⟩⟩
  · intro n hconfigure
    refine ⟨?_, ?_⟩
    · rw [Act.perform, Move.perform, hconfigure]
      rfl
    · obtain ⟨fields, hpatch, hfits, rfl⟩ := Node.configure_eq_ok_iff.mp hconfigure
      refine ⟨rfl, fields, hpatch, fun f => ⟨fun value hgiven => ?_, fun hgiven => ?_⟩⟩
      · have hslot := Settings.read?_slot (s := p.node.settings) hfits.readable f
        rwa [Settings.slot, hgiven, Option.getD_some] at hslot
      · have hback : (p.node.settings.patched fields).get f =
            f.kind.written (p.node.settings.get f) := by
          rw [Settings.get_patched, hgiven, Option.bind_none, Option.getD_none]
        exact ⟨hback, fun h => hback.trans ((hwhole h).written_get f)⟩
  · intro e hconfigure
    rw [Act.perform, Move.perform, hconfigure]
    rfl

/-- A node is told to suspect for a shorter time and then announces itself. It takes the next patch, with
    two fields, and refuses one whose delay would exceed the largest. -/
theorem settings_govern_after_two_patches :
    ∃ node p,
      Node.createWith hash32 "a" { Settings.default with replicaPoints := 2 } .none = .ok node ∧
      (start node).persist
        [(⟨7, 0⟩, .move (.configure (.obj [("suspicionTimeout", .int 700)]))), (⟨7, 0⟩, .enter 0),
          (⟨7, 0⟩, .announce 0)] = p ∧
      p.node.Attuned ∧ p.node.suspicion.timeout = .ofMillis 700 ∧
      p.node.configure (.obj [("joinDelay", .int 90), ("maxPiggybackCount", .int 3)]) =
        .ok (p.node.withSettings
          { p.node.settings with joinDelay := .ofMillis 90, maxPiggybackCount := 3 }) ∧
      p.node.configure (.obj [("joinDelay", .int 9000)]) =
        .error (.invalidConfig "joinDelay must not exceed maxJoinDelay") ∧
      (Act.move (.configure (.obj [("joinDelay", .int 9000)]))).perform ⟨8, 1⟩ p = .done p () := by
  have hnode : Node.createWith hash32 "a" { Settings.default with replicaPoints := 2 } .none =
      .ok _ := rfl
  obtain ⟨hattuned, hpatches⟩ := settings_govern hnode
    [(⟨7, 0⟩, .move (.configure (.obj [("suspicionTimeout", .int 700)]))), (⟨7, 0⟩, .enter 0),
      (⟨7, 0⟩, .announce 0)] rfl
  refine ⟨_, _, hnode, rfl, hattuned, by decide +kernel, ?_, ?_, (hpatches _ ⟨8, 1⟩).2.2
    (.invalidConfig "joinDelay must not exceed maxJoinDelay") ?_⟩
  · exact Node.configure_eq_ok_iff_merge.mpr ⟨_, by decide +kernel, by decide +kernel, rfl⟩
  · exact Node.configure_of_merge_eq_error (by decide +kernel)
  · exact Node.configure_of_merge_eq_error (by decide +kernel)

/-- **A patch changes a duration that it does not name.** The members of one node stay suspect for as many
    seconds as there can be. A patch names the timeout of a ping, and leaves the suspects less time: the
    lowest 64 bits of the milliseconds. Of 2^61 seconds nothing is left; a node with such a period refuses
    a patch without any field. -/
theorem patch_changes_long_duration :
    ∃ timeout period patient slow n,
      timeout.nanos = 18446744073709551615 * 1000000000 ∧
      period.nanos = 2305843009213693952 * 1000000000 ∧
      Node.createWith hash32 "a" { Settings.default with suspicionTimeout := timeout } .none =
        .ok patient ∧
      patient.configure (.obj [("pingTimeout", .int 10)]) = .ok n ∧
      patient.settings.suspicionTimeout = timeout ∧
      n.settings.suspicionTimeout = .ofMillis 18446744073709550616 ∧
      Node.createWith hash32 "a" { Settings.default with protocolPeriod := period } .none = .ok slow ∧
      slow.configure (.obj []) = .error (.invalidConfig "protocolPeriod must be positive") := by
  refine ⟨⟨18446744073709551615 * 1000000000, by decide⟩,
    ⟨2305843009213693952 * 1000000000, by decide⟩, _, _, _, rfl, rfl, rfl,
    Node.configure_eq_ok_iff_merge.mpr
      ⟨{ Settings.default with
          suspicionTimeout := .ofMillis 18446744073709550616, pingTimeout := .ofMillis 10 },
        ?_, rfl, rfl⟩,
    rfl, rfl, rfl, Node.configure_of_merge_eq_error ?_⟩
  · decide +kernel
  · decide +kernel

end Process

end GossipRing
