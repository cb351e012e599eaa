import GossipRing.Proofs.RingPositions
import Mathlib.Data.Finset.Sort

/-!
# Batches of a hash ring

Toward: a batch is the calls it stands for, made one by one. A name may come several times and in both
lists, and points may meet, so which calls have an effect shows only as they are made. The batch leaves
the checksum and the log for later, and both ways look at neither.

* **`effective`** — the calls of a history that answer `true`. `checksum_run`: the checksum is what it
  was before the first of them, and from then on it is the one of the declared servers.
* **`bare`** — a ring without checksum and log. Rings that are one but for these go on alike
  (`bare_run_congr`).
* **`Move.all_eq`** — what the additions of a batch do, or its removals: the ring of the single calls,
  with the old checksum, and the effective ones in the log.
* **`addRemove_eq_calls`** — what a batch does, in answers, log and checksum.
-/

namespace GossipRing

/-- A server came or went. -/
def RingEvent.isMove : RingEvent → Bool
  | added _ => true
  | removed _ => true
  | checksumComputed _ _ => false
  | changed _ _ => false

namespace Ring

/-! ## Calls that have an effect -/

/-- What an operation answers. -/
def Op.answer (r : Ring) : Op → Bool
  | add server => (r.add server).2
  | remove server => (r.remove server).2
  | addRemove toAdd toRemove => (r.addRemove toAdd toRemove).2

/-- The operations of a history that answer `true`, each when its turn comes. -/
def effective (r : Ring) : List Op → List Op
  | [] => []
  | op :: rest =>
    if op.answer r then op :: effective (op.apply r) rest else effective (op.apply r) rest

/-- The calls that a batch stands for. -/
def calls (toAdd toRemove : List String) : List Op := toAdd.map .add ++ toRemove.map .remove

/-- The ring with another checksum and another log. -/
def withLog (r : Ring) (checksum : Option UInt32) (events : List RingEvent) : Ring :=
  { r with checksum := checksum, events := events }

/-- The ring without its checksum and its log. -/
def bare (r : Ring) : Ring := r.withLog none []

/-- Both rings declare the same servers and have the same checksum, every position has the same owner,
    and every look-up finds the same. -/
structure Agrees (r r' : Ring) : Prop where
  servers : r.servers = r'.servers
  checksum : r.checksum = r'.checksum
  positions : ∀ p, r.positions.get? p = r'.positions.get? p
  lookup : ∀ key, r.lookup key = r'.lookup key
  lookupMany : ∀ key n, r.lookupMany key n = r'.lookupMany key n

variable {r r' : Ring} {s : String} {names toAdd toRemove : List String} {op : Op} {ops : List Op}

/-! ## Single moves -/

/-- The two ways in which a server moves. -/
inductive Move where
  | arrival
  | departure

namespace Move

/-- The move of one server, if it is one. -/
def step : Move → Ring → String → Option Ring
  | arrival => place
  | departure => withdraw

def event : Move → String → RingEvent
  | arrival => .added
  | departure => .removed

def call : Move → String → Op
  | arrival => .add
  | departure => .remove

/-- The moves of several servers, as a batch makes them. -/
def all : Move → Ring → List String → Ring × List String
  | arrival => placeAll
  | departure => withdrawAll

variable {m : Move}

theorem all_nil (m : Move) (r : Ring) : m.all r [] = (r, []) := by cases m <;> rfl

/-- A name that cannot move is passed over by the batch. -/
theorem all_cons_of_none (h : m.step r s = none) : m.all r (s :: names) = m.all r names := by
  cases m with
  | arrival => rw [all, placeAll, show r.place s = none from h]
  | departure => rw [all, withdrawAll, show r.withdraw s = none from h]

/-- A name that moves is announced at once, and the batch goes on from the ring it leaves. -/
theorem all_cons_of_some (h : m.step r s = some r') : m.all r (s :: names) =
    ((m.all (r'.emit (m.event s)) names).1, s :: (m.all (r'.emit (m.event s)) names).2) := by
  cases m with
  | arrival =>
      rw [all, placeAll, show r.place s = some r' from h]
      rfl
  | departure =>
      rw [all, withdrawAll, show r.withdraw s = some r' from h]
      rfl

/-- A single call about a name that cannot move changes nothing and says so. -/
theorem call_of_none (h : m.step r s = none) :
    (m.call s).apply r = r ∧ (m.call s).answer r = false := by
  cases m with
  | arrival => simp [call, Op.apply, Op.answer, add, show r.place s = none from h]
  | departure => simp [call, Op.apply, Op.answer, remove, show r.withdraw s = none from h]

/-- A single call about a name that moves renews the checksum before the move is announced. -/
theorem call_of_some (h : m.step r s = some r') :
    (m.call s).apply r = r'.renewChecksum.emit (m.event s) ∧ (m.call s).answer r = true := by
  cases m with
  | arrival => simp [call, event, Op.apply, Op.answer, add, show r.place s = some r' from h]
  | departure =>
      simp [call, event, Op.apply, Op.answer, remove, show r.withdraw s = some r' from h]

/-- A move leaves checksum and log alone. -/
theorem log_of_step (h : m.step r s = some r') :
    r'.checksum = r.checksum ∧ r'.events = r.events := by
  cases m with
  | arrival =>
      obtain ⟨-, rfl⟩ := place_eq_some h
      exact ⟨rfl, rfl⟩
  | departure =>
      obtain ⟨-, rfl⟩ := withdraw_eq_some h
      exact ⟨rfl, rfl⟩

/-- A move does not look at the checksum and the log. -/
theorem step_bare (m : Move) (r : Ring) (s : String) :
    m.step r.bare s = (m.step r s).map bare := by
  cases m with
  | arrival =>
      show r.bare.place s = (r.place s).map bare
      rw [place, place, show r.bare.hasServer s = r.hasServer s from rfl]
      split <;> rfl
  | departure =>
      show r.bare.withdraw s = (r.withdraw s).map bare
      rw [withdraw, withdraw, show r.bare.hasServer s = r.hasServer s from rfl]
      split <;> rfl

/-- A call does the same to rings that differ in checksum and log only. -/
theorem call_congr (m : Move) (s : String) (h : r.bare = r'.bare) :
    ((m.call s).apply r).bare = ((m.call s).apply r').bare ∧
      (m.call s).answer r = (m.call s).answer r' := by
  have hsame : (m.step r s).map bare = (m.step r' s).map bare := by
    rw [← step_bare, ← step_bare, h]
  cases hr : m.step r s with
  | none =>
      have hr' : m.step r' s = none := by
        rw [hr] at hsame
        exact Option.map_eq_none_iff.mp hsame.symm
      rw [(call_of_none hr).1, (call_of_none hr').1, (call_of_none hr).2, (call_of_none hr').2]
      exact ⟨h, rfl⟩
  | some q =>
      rw [hr] at hsame
      obtain ⟨q', hr', hq⟩ := Option.map_eq_some_iff.mp hsame.symm
      rw [(call_of_some hr).1, (call_of_some hr').1, (call_of_some hr).2, (call_of_some hr').2]
      exact ⟨hq.symm, rfl⟩

/-- Where none of the moves is one, nothing changes. -/
theorem all_of_nil (h : m.all r names = (r', [])) : r' = r := by
  induction names with
  | nil =>
      rw [all_nil] at h
      exact (congrArg Prod.fst h).symm
  | cons s rest ih =>
      cases hstep : m.step r s with
      | none =>
          rw [all_cons_of_none hstep] at h
          exact ih h
      | some q =>
          rw [all_cons_of_some hstep] at h
          cases congrArg Prod.snd h

end Move

/-! ## Which operations have an effect -/

/-- A batch is its moves, and a report at the end if there was one. -/
theorem addRemove_of_moves {q q' : Ring} {added removed : List String}
    (hadded : Move.arrival.all r toAdd = (q, added))
    (hremoved : Move.departure.all q toRemove = (q', removed)) : r.addRemove toAdd toRemove =
      if added = [] ∧ removed = [] then (q', false)
      else (q'.renewChecksum.emit (.changed added removed), true) := by
  have hplaced : r.placeAll toAdd = (q, added) := hadded
  have hwithdrawn : q.withdrawAll toRemove = (q', removed) := hremoved
  rw [addRemove, hplaced]
  dsimp only
  rw [hwithdrawn]
  simp only [Bool.and_eq_true, List.isEmpty_iff]

/-- An operation that answers `false` changes nothing. -/
theorem apply_of_not_answer (h : op.answer r = false) : op.apply r = r := by
  have hcall : ∀ (m : Move) s, (m.call s).answer r = false → (m.call s).apply r = r := by
    intro m s h
    cases hstep : m.step r s with
    | none => exact (Move.call_of_none hstep).1
    | some q => exact absurd (h.symm.trans (Move.call_of_some hstep).2) Bool.false_ne_true
  cases op with
  | add s => exact hcall .arrival s h
  | remove s => exact hcall .departure s h
  | addRemove toAdd toRemove =>
      -- a batch answers no if neither half of it has moved anything
      rcases hadded : Move.arrival.all r toAdd with ⟨q, added⟩
      rcases hremoved : Move.departure.all q toRemove with ⟨q', removed⟩
      replace h : (r.addRemove toAdd toRemove).2 = false := h
      show (r.addRemove toAdd toRemove).1 = r
      rw [addRemove_of_moves hadded hremoved] at h ⊢
      split at h
      · next hnone =>
        rw [if_pos hnone]
        obtain ⟨rfl, rfl⟩ := hnone
        exact (Move.all_of_nil hremoved).trans (Move.all_of_nil hadded)
      · cases h

/-- One that answers `true` leaves the checksum of the declared servers. -/
theorem checksum_of_answer (h : op.answer r = true) :
    (op.apply r).checksum = some (op.apply r).computeChecksum := by
  have hcall : ∀ (m : Move) s, (m.call s).answer r = true →
      ((m.call s).apply r).checksum = some ((m.call s).apply r).computeChecksum := by
    intro m s h
    cases hstep : m.step r s with
    | none => exact absurd ((Move.call_of_none hstep).2.symm.trans h) Bool.false_ne_true
    | some q =>
        rw [(Move.call_of_some hstep).1]
        rfl
  cases op with
  | add s => exact hcall .arrival s h
  | remove s => exact hcall .departure s h
  | addRemove toAdd toRemove =>
      rcases hadded : Move.arrival.all r toAdd with ⟨q, added⟩
      rcases hremoved : Move.departure.all q toRemove with ⟨q', removed⟩
      replace h : (r.addRemove toAdd toRemove).2 = true := h
      show (r.addRemove toAdd toRemove).1.checksum =
        some (r.addRemove toAdd toRemove).1.computeChecksum
      rw [addRemove_of_moves hadded hremoved] at h ⊢
      split at h
      · cases h
      · next hsome =>
        rw [if_neg hsome]
        rfl

theorem effective_cons_of_not (h : op.answer r = false) :
    r.effective (op :: ops) = r.effective ops := by
  rw [effective, h, apply_of_not_answer h]
  rfl

theorem effective_cons_of_answer (h : op.answer r = true) :
    r.effective (op :: ops) = op :: (op.apply r).effective ops := by
  rw [effective, if_pos h]

/-- Where no operation has an effect nothing changes. -/
theorem run_of_effective_eq_nil (h : r.effective ops = []) : r.run ops = r := by
  induction ops with
  | nil => rfl
  | cons op rest ih =>
      cases hanswer : op.answer r with
      | false =>
          rw [effective_cons_of_not hanswer] at h
          show (op.apply r).run rest = r
          rw [apply_of_not_answer hanswer]
          exact ih h
      | true =>
          rw [effective_cons_of_answer hanswer] at h
          cases h

/-- **The checksum is the one of the declared servers, from the first change on.** -/
theorem checksum_run (r : Ring) (ops : List Op) : (r.run ops).checksum =
    if r.effective ops = [] then r.checksum else some (r.run ops).computeChecksum := by
  induction ops generalizing r with
  | nil => rfl
  | cons op rest ih =>
      show ((op.apply r).run rest).checksum =
        if _ then _ else some ((op.apply r).run rest).computeChecksum
      rw [ih]
      cases hanswer : op.answer r with
      | false => rw [effective_cons_of_not hanswer, apply_of_not_answer hanswer]
      | true =>
          rw [effective_cons_of_answer hanswer, if_neg (List.cons_ne_nil _ _)]
          split
          · next hnone =>
            rw [run_of_effective_eq_nil hnone]
            exact checksum_of_answer hanswer
          · rfl

/-- Which calls of the second list are effective is decided by the ring that the first has left. -/
theorem effective_append (r : Ring) (ops more : List Op) :
    r.effective (ops ++ more) = r.effective ops ++ (r.run ops).effective more := by
  induction ops generalizing r with
  | nil => rfl
  | cons op rest ih =>
      rw [List.cons_append, effective, effective, ih]
      show _ = _ ++ ((op.apply r).run rest).effective more
      split <;> rfl

theorem run_cons (r : Ring) (op : Op) (ops : List Op) : r.run (op :: ops) = (op.apply r).run ops := rfl

theorem run_append (r : Ring) (ops more : List Op) : r.run (ops ++ more) = (r.run ops).run more :=
  List.foldl_append

/-! ## Histories of single calls -/

/-- Each of the operations moves one server. -/
def Single (ops : List Op) : Prop := ∀ op ∈ ops, ∃ (m : Move) (s : String), op = m.call s

theorem single_map_call (m : Move) (names : List String) : Single (names.map m.call) := by
  intro op hop
  obtain ⟨s, -, rfl⟩ := List.mem_map.mp hop
  exact ⟨m, s, rfl⟩

/-- The calls that a batch stands for are about one name each. -/
theorem single_calls (toAdd toRemove : List String) : Single (calls toAdd toRemove) := by
  intro op hop
  rcases List.mem_append.mp hop with hop | hop
  · exact single_map_call .arrival toAdd op hop
  · exact single_map_call .departure toRemove op hop

/-- **Rings that are one but for checksum and log go on alike.** -/
theorem bare_run_congr (hsingle : Single ops) (h : r.bare = r'.bare) :
    (r.run ops).bare = (r'.run ops).bare ∧ r.effective ops = r'.effective ops := by
  induction ops generalizing r r' with
  | nil => exact ⟨h, rfl⟩
  | cons op rest ih =>
      obtain ⟨m, s, rfl⟩ := hsingle op List.mem_cons_self
      obtain ⟨happly, hanswer⟩ := m.call_congr s h
      obtain ⟨hrun, heffective⟩ := ih (fun op hop => hsingle op (List.mem_cons_of_mem _ hop)) happly
      refine ⟨hrun, ?_⟩
      rw [effective, effective, hanswer, heffective]

/-- What looks at neither checksum nor log is the same for both. -/
theorem congr_of_bare {α : Type} (f : Ring → α) (hf : ∀ r, f r.bare = f r) (h : r.bare = r'.bare) :
    f r = f r' := by
  rw [← hf r, h, hf r']

/-- With one checksum and one log they are the same ring. -/
theorem withLog_congr (h : r.bare = r'.bare) (checksum : Option UInt32) (events : List RingEvent) :
    r.withLog checksum events = r'.withLog checksum events :=
  congr_of_bare (fun q => q.withLog checksum events) (fun _ => rfl) h

/-- The server that a single call moves, as the log has it. -/
def Op.moves : Op → List RingEvent
  | add server => [.added server]
  | remove server => [.removed server]
  | addRemove _ _ => []

theorem moves_call (m : Move) (s : String) : (m.call s).moves = [m.event s] := by
  cases m <;> rfl

/-- A report comes behind the checksum that is renewed for it. -/
theorem events_report (r : Ring) (event : RingEvent) : (r.renewChecksum.emit event).events =
    r.events ++ [.checksumComputed r.computeChecksum r.checksum, event] :=
  List.append_assoc _ _ _

/-- The log of a single call has one move. -/
theorem filter_isMove_report (m : Move) (r : Ring) (s : String) :
    (r.renewChecksum.emit (m.event s)).events.filter RingEvent.isMove =
      r.events.filter RingEvent.isMove ++ [m.event s] := by
  rw [events_report, List.filter_append]
  cases m <;> rfl

/-- **The servers that moved are logged in order**: those of the calls that have an effect. -/
theorem moves_run (hsingle : Single ops) : (r.run ops).events.filter RingEvent.isMove =
    r.events.filter RingEvent.isMove ++ (r.effective ops).flatMap Op.moves := by
  induction ops generalizing r with
  | nil => exact (List.append_nil _).symm
  | cons op rest ih =>
      obtain ⟨m, s, rfl⟩ := hsingle op List.mem_cons_self
      show (((m.call s).apply r).run rest).events.filter RingEvent.isMove = _
      rw [ih fun op hop => hsingle op (List.mem_cons_of_mem _ hop)]
      cases hstep : m.step r s with
      | none =>
          obtain ⟨happly, hanswer⟩ := Move.call_of_none hstep
          rw [effective_cons_of_not hanswer, happly]
      | some q =>
          obtain ⟨happly, hanswer⟩ := Move.call_of_some hstep
          rw [effective_cons_of_answer hanswer, List.flatMap_cons, moves_call, happly,
            filter_isMove_report, (Move.log_of_step hstep).2, List.append_assoc]

/-! ## The moves of a batch -/

/-- **The moves of a batch are the single calls**, without their checksums: the moved servers are those
    of the calls that have an effect, and only these are logged. -/
theorem Move.all_eq {m : Move} {moved : List String} (h : m.all r names = (r', moved)) :
    r.effective (names.map m.call) = moved.map m.call ∧
      r' = (r.run (names.map m.call)).withLog r.checksum (r.events ++ moved.map m.event) := by
  induction names generalizing r moved with
  | nil =>
      rw [all_nil] at h
      obtain ⟨rfl, rfl⟩ := Prod.mk.inj h
      refine ⟨rfl, ?_⟩
      show r = r.withLog r.checksum (r.events ++ [])
      rw [List.append_nil]
      rfl
  | cons s rest ih =>
      rw [List.map_cons, run_cons]
      cases hstep : m.step r s with
      | none =>
          obtain ⟨happly, hanswer⟩ := call_of_none hstep
          rw [all_cons_of_none hstep] at h
          rw [effective_cons_of_not hanswer, happly]
          exact ih h
      | some q =>
          obtain ⟨happly, hanswer⟩ := call_of_some hstep
          obtain ⟨hchecksum, hevents⟩ := log_of_step hstep
          rw [all_cons_of_some hstep] at h
          obtain ⟨rfl, rfl⟩ := Prod.mk.inj h
          obtain ⟨heffective, hring⟩ := ih (r := q.emit (m.event s)) rfl
          -- the single call has renewed the checksum and logged that, and nobody looks at it
          have hbare : (q.emit (m.event s)).bare = (q.renewChecksum.emit (m.event s)).bare := rfl
          obtain ⟨hrun, hsame⟩ := bare_run_congr (single_map_call m rest) hbare
          rw [effective_cons_of_answer hanswer, happly, ← hsame, heffective, hring,
            withLog_congr hrun, ← hchecksum, ← hevents]
          refine ⟨rfl, ?_⟩
          show (Ring.run _ _).withLog q.checksum (q.events ++ [m.event s] ++ _) = _
          rw [List.append_assoc]
          rfl

/-- What a batch leaves: the ring of its calls, with the moved servers in the log, and one report. -/
theorem addRemove_eq (r : Ring) (toAdd toRemove : List String) : ∃ added removed,
    r.effective (calls toAdd toRemove) = calls added removed ∧
      r.addRemove toAdd toRemove =
        if added = [] ∧ removed = [] then (r, false)
        else
          (((r.run (calls toAdd toRemove)).withLog r.checksum
              (r.events ++ added.map .added ++ removed.map .removed)).renewChecksum.emit
            (.changed added removed), true) := by
  rcases hadded : Move.arrival.all r toAdd with ⟨q, added⟩
  rcases hremoved : Move.departure.all q toRemove with ⟨q', removed⟩
  obtain ⟨hadds, hplaced⟩ : r.effective (toAdd.map .add) = added.map .add ∧
      q = (r.run (toAdd.map .add)).withLog r.checksum
        (r.events ++ added.map RingEvent.added) :=
    Move.all_eq hadded
  obtain ⟨hremoves, hwithdrawn⟩ : q.effective (toRemove.map .remove) = removed.map .remove ∧
      q' = (q.run (toRemove.map .remove)).withLog q.checksum
        (q.events ++ removed.map RingEvent.removed) :=
    Move.all_eq hremoved
  -- the removals start from the ring of the additions, but for checksum and log
  have hbare : q.bare = (r.run (toAdd.map .add)).bare := by
    rw [hplaced]
    rfl
  obtain ⟨hrun, hsame⟩ : (q.run (toRemove.map .remove)).bare =
        ((r.run (toAdd.map .add)).run (toRemove.map .remove)).bare ∧
      q.effective (toRemove.map .remove) =
        (r.run (toAdd.map .add)).effective (toRemove.map .remove) :=
    bare_run_congr (single_map_call .departure toRemove) hbare
  refine ⟨added, removed, ?_, ?_⟩
  · rw [calls, effective_append, hadds, ← hsame, hremoves, calls]
  · rw [addRemove_of_moves hadded hremoved]
    split
    · next hnone =>
      obtain ⟨rfl, rfl⟩ := hnone
      rw [Move.all_of_nil hremoved, Move.all_of_nil hadded]
    · rw [hwithdrawn, withLog_congr hrun, calls, run_append, hplaced]
      rfl

/-! ## A batch and its calls -/

theorem calls_eq_nil_iff {added removed : List String} :
    calls added removed = [] ↔ added = [] ∧ removed = [] := by
  rw [calls, List.append_eq_nil_iff, List.map_eq_nil_iff, List.map_eq_nil_iff]

/-- The calls announce the additions first, and then the removals. -/
theorem flatMap_moves_calls (added removed : List String) :
    (calls added removed).flatMap Op.moves = added.map .added ++ removed.map .removed := by
  rw [calls, List.flatMap_append, List.flatMap_map, List.flatMap_map]
  exact congrArg₂ (· ++ ·) List.map_eq_flatMap.symm List.map_eq_flatMap.symm

theorem filter_isMove_calls (added removed : List String) :
    (added.map RingEvent.added ++ removed.map RingEvent.removed).filter RingEvent.isMove =
      added.map RingEvent.added ++ removed.map RingEvent.removed := by
  refine List.filter_eq_self.mpr fun event hevent => ?_
  rcases List.mem_append.mp hevent with hevent | hevent
  · obtain ⟨s, -, rfl⟩ := List.mem_map.mp hevent
    rfl
  · obtain ⟨s, -, rfl⟩ := List.mem_map.mp hevent
    rfl

/-- A history has the checksum of the names it leaves declared, unless it has changed nothing. -/
theorem checksum_run_empty (n : ℕ) (hash : HashFunction) (ops : List Op) :
    ((empty n hash).run ops).checksum =
      if (empty n hash).effective ops = [] then none
      else some (hash (String.intercalate ";" ((declared ops).sort (· ≤ ·)))) := by
  have hservers : ((empty n hash).run ops).servers = (declared ops).sort (· ≤ ·) := by
    refine ((Sound.empty n hash).run ops).ascending.eq_of_mem_iff
      (Finset.sortedLT_sort _).pairwise fun s => ?_
    rw [mem_servers_run, Finset.mem_sort]
  rw [checksum_run, computeChecksum, (points_run _ ops).1, hservers]
  rfl

/-- Rings that are one but for checksum and log agree if they have one checksum. -/
theorem Agrees.of_bare (h : r.bare = r'.bare) (hchecksum : r.checksum = r'.checksum) :
    Agrees r r' where
  servers := congr_of_bare Ring.servers (fun _ => rfl) h
  checksum := hchecksum
  positions p := congr_of_bare (fun q => q.positions.get? p) (fun _ => rfl) h
  lookup key := congr_of_bare (fun q => q.lookup key) (fun _ => rfl) h
  lookupMany key n := congr_of_bare (fun q => q.lookupMany key n) (fun _ => rfl) h

/-- **A batch is the calls it stands for**, whatever names come again or in both lists, and however the
    points meet. -/
theorem addRemove_eq_calls (r : Ring) (toAdd toRemove : List String) :
    Agrees (r.addRemove toAdd toRemove).1 (r.run (calls toAdd toRemove)) ∧
    ((r.addRemove toAdd toRemove).2 = true ↔ r.effective (calls toAdd toRemove) ≠ []) ∧
    (r.addRemove toAdd toRemove).1.events.filter RingEvent.isMove =
      (r.run (calls toAdd toRemove)).events.filter RingEvent.isMove ∧
    (∃ added removed, r.effective (calls toAdd toRemove) = calls added removed ∧
      (r.addRemove toAdd toRemove).1.events =
        r.events ++ (added.map .added ++ removed.map .removed) ++
          if calls added removed = [] then []
          else
            [.checksumComputed (r.addRemove toAdd toRemove).1.computeChecksum r.checksum,
              .changed added removed]) ∧
    ∀ n hash ops, ((empty n hash).run ops).checksum =
      if (empty n hash).effective ops = [] then none
      else some (hash (String.intercalate ";" ((declared ops).sort (· ≤ ·)))) := by
  obtain ⟨added, removed, heffective, hbatch⟩ := addRemove_eq r toAdd toRemove
  have hchecksum := checksum_run r (calls toAdd toRemove)
  have hmoves := moves_run (r := r) (single_calls toAdd toRemove)
  rw [heffective, flatMap_moves_calls] at hmoves
  rw [heffective] at hchecksum ⊢
  rw [hmoves, hbatch]
  by_cases hnone : added = [] ∧ removed = []
  · -- no call has an effect
    have hrun : r.run (calls toAdd toRemove) = r :=
      run_of_effective_eq_nil (heffective.trans (calls_eq_nil_iff.mpr hnone))
    obtain ⟨rfl, rfl⟩ := hnone
    rw [if_pos ⟨rfl, rfl⟩, hrun]
    refine ⟨.of_bare rfl rfl, ?_, ?_, ⟨[], [], rfl, ?_⟩, checksum_run_empty⟩
    · simp [calls]
    · simp
    · simp [calls]
  · have hsome : calls added removed ≠ [] := mt calls_eq_nil_iff.mp hnone
    rw [if_neg hsome] at hchecksum
    rw [if_neg hnone]
    refine ⟨.of_bare rfl hchecksum.symm, ?_, ?_, ⟨added, removed, rfl, ?_⟩, checksum_run_empty⟩
    · exact iff_of_true rfl hsome
    · rw [events_report, withLog, List.append_assoc r.events, List.filter_append,
        List.filter_append, filter_isMove_calls]
      exact List.append_nil _
    · rw [if_neg hsome, events_report, ← List.append_assoc r.events]
      rfl

/-- Names that come again, and in both lists, under a hash that puts all of them on one point. -/
example :
    (empty 2 fun _ => 7).effective (calls ["b", "a", "b"] ["a", "c", "a"]) =
        [.add "b", .add "a", .remove "a"] ∧
      ((empty 2 fun _ => 7).addRemove ["b", "a", "b"] ["a", "c", "a"]).1.events =
        [.added "b", .added "a", .removed "a", .checksumComputed 7 none,
          .changed ["b", "a"] ["a"]] := by
  decide +kernel

end Ring

end GossipRing
