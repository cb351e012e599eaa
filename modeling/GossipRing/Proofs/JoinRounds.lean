import GossipRing.Proofs.FailedBootstraps
import GossipRing.Proofs.Walks

/-!
# Joining host by host

Toward: a join that succeeds has joined exactly as many different hosts as it should. Hosts are asked
over any number of rounds, each in an order of its own, and a round leaves out whoever was joined in an
earlier one. So what has to be known between two asks is who was asked in this round and who was joined
in any.

* **`Join.Course`** — what may become of a join, with all asks and their answers. `Join.Succeeds` is how it
  ends well.
* **`Join.Sound`** — what holds between two asks. One ask keeps it (`Sound.take`), another round does
  (`Sound.nextRound`), and so does every course (`Sound.course`).
* **`World.Follows`** — what a network makes of a join: the course goes on until it is complete or the node
  gives up (`World.follows_takeAnswer`, `World.follows_resume`).
* **`Join.joins_as_wanted`** — who is asked, who is joined, and how many.
-/

namespace GossipRing

namespace Join

/-- A host was asked in some round, and this came back, `none` if it was nothing usable. -/
structure Ask where
  round : ℕ
  host : String
  answer : Option JoinResponse
  deriving DecidableEq

/-- The host that took the node in, with the table that it sent. -/
def Ask.taken (app : String) (a : Ask) : Option (String × Snapshot) :=
  match a.answer with
  | some r => if r.app = app then some (a.host, r.snapshot) else none
  | none => none

/-- The host took the node in. One of another application did not. -/
def Ask.Joins (app : String) (a : Ask) : Prop := ∃ r, a.answer = some r ∧ r.app = app

/-- What may become of a join: the number of rounds, all asks in order, and where it stands. While it
    is not complete the next host is asked, and may answer anything. Nobody left to ask, it pauses and
    begins another round. -/
inductive Course (start : Join) : ℕ → List Ask → Join → Prop
  | begun : Course start 0 [] start
  | ask {rounds : ℕ} {asks : List Ask} {j : Join} {host : String} {rest : List String}
      (h : Course start rounds asks j) (hgoing : asks ≠ [] → j.isComplete = false)
      (hnext : j.asking = host :: rest) (answer : Option JoinResponse) :
      Course start rounds (asks ++ [⟨rounds, host, answer⟩]) (j.take host answer)
  | pause {rounds : ℕ} {asks : List Ask} {j : Join} (h : Course start rounds asks j)
      (hover : j.asking = []) (chance : Chance) : Course start rounds asks (j.pause chance).2.1
  | round {rounds : ℕ} {asks : List Ask} {j : Join} (h : Course start rounds asks j)
      (hover : j.asking = []) (chance : Chance) :
      Course start (rounds + 1) asks (j.nextRound chance).1

/-- A node without peers to join has joined at once, any other one when its join is complete. -/
inductive Succeeds (address : String) (settings : Settings) (incarnation : UInt64)
    (hosts : List String) (now : ℕ) : List Ask → List (String × Snapshot) → Prop
  | alone (h : begin? address settings incarnation hosts now = none) :
      Succeeds address settings incarnation hosts now [] []
  | complete {start j : Join} {rounds : ℕ} {asks : List Ask}
      (hbegin : begin? address settings incarnation hosts now = some start)
      (h : Course start rounds asks j) (hcomplete : j.isComplete = true) :
      Succeeds address settings incarnation hosts now asks j.joined

section

variable {address app host : String} {settings : Settings} {incarnation : UInt64}
  {hosts peers rest : List String} {now size rounds : ℕ} {asks : List Ask} {j start : Join} {a : Ask}
  {answer : Option JoinResponse} {s : Snapshot}

/-- An answer is taken exactly when it came and is of the own application. -/
theorem Ask.taken_eq_some : a.taken app = some (host, s) ↔
    a.host = host ∧ ∃ r, a.answer = some r ∧ r.app = app ∧ r.snapshot = s := by
  rw [taken]
  cases a.answer with
  | none => exact iff_of_false nofun fun ⟨_, _, h, _⟩ => nomatch h
  | some r =>
      dsimp only
      split
      · next happ =>
        rw [Option.some.injEq, Prod.mk.injEq]
        refine and_congr_right fun _ => ⟨fun hs => ⟨r, rfl, happ, hs⟩, ?_⟩
        rintro ⟨r', hr, -, hs⟩
        exact Option.some.inj hr ▸ hs
      · next happ =>
        refine iff_of_false nofun ?_
        rintro ⟨-, r', hr, h, -⟩
        exact happ (Option.some.inj hr ▸ h)

/-- Something is taken from an ask exactly when the asked host joins by it. -/
theorem Ask.isSome_taken_iff : (a.taken app).isSome ↔ a.Joins app := by
  rw [Option.isSome_iff_exists]
  constructor
  · rintro ⟨⟨host, s⟩, h⟩
    obtain ⟨-, r, hanswer, happ, -⟩ := Ask.taken_eq_some.mp h
    exact ⟨r, hanswer, happ⟩
  · rintro ⟨r, hanswer, happ⟩
    exact ⟨(a.host, r.snapshot), Ask.taken_eq_some.mpr ⟨rfl, r, hanswer, happ, rfl⟩⟩

/-- What holds of a join between two asks: `peers` are the hosts that it can ask, and `size` is how many it
    would like to join. -/
structure Sound (app : String) (peers : List String) (size rounds : ℕ) (asks : List Ask) (j : Join) :
    Prop where
  sameApp : j.settings.app = app
  wanted : j.wanted = min size peers.length
  positive : 0 < j.wanted
  candidates : j.candidates.Nodup ∧ j.candidates ⊆ peers
  asking : j.asking.Nodup ∧ j.asking ⊆ peers
  asked : ∀ a ∈ asks, a.round ≤ rounds ∧ a.host ∈ peers
  joined : j.joined = asks.filterMap (Ask.taken app)
  within : j.joined.length ≤ j.wanted
  /-- Whoever is still to be asked was not asked in this round, and was not joined. -/
  fresh : ∀ host ∈ j.asking, ∀ a ∈ asks, a.round = rounds ∨ a.Joins app → a.host ≠ host
  once : asks.Pairwise fun a b => a.round = b.round ∨ a.Joins app → a.host ≠ b.host

/-- Taking an answer drops the asked host and adds what was taken from it. -/
theorem take_eq (j : Join) (host : String) (answer : Option JoinResponse) (rounds : ℕ) :
    j.take host answer =
      { j with
        asking := j.asking.tail
        joined := j.joined ++ ((⟨rounds, host, answer⟩ : Ask).taken j.settings.app).toList } := by
  cases answer with
  | none => simp [take, Ask.taken]
  | some r =>
      rw [take, Ask.taken]
      dsimp only
      split
      · rfl
      · rw [Option.toList_none, List.append_nil]

namespace Sound

/-- A join that has just begun is sound, and it wants at least one host. -/
theorem begun (hvalid : settings.IsValid)
    (h : begin? address settings incarnation hosts now = some start) :
    Sound settings.app (Join.peers address hosts) settings.joinSize.toNat 0 [] start := by
  rw [begin?] at h
  split at h
  · cases h
  · next hpeers =>
    obtain rfl := Option.some.inj h
    exact
      { sameApp := rfl
        wanted := rfl
        positive := Nat.lt_min.mpr ⟨Nat.pos_of_ne_zero fun hzero =>
          hvalid.joinSize_ne_zero (UInt64.toNat_inj.mp hzero),
          List.length_pos_iff.mpr fun hnil => hpeers (List.isEmpty_iff.mpr hnil)⟩
        candidates := ⟨Ring.nodup_eraseDups _, List.Subset.refl _⟩
        asking := ⟨List.nodup_nil, List.nil_subset _⟩
        asked := List.forall_mem_nil _
        joined := rfl
        within := Nat.zero_le _
        fresh := fun _ _ _ ha => absurd ha List.not_mem_nil
        once := .nil }

/-- One host is asked. -/
theorem take (h : Sound app peers size rounds asks j) (hgoing : asks ≠ [] → j.isComplete = false)
    (hnext : j.asking = host :: rest) (answer : Option JoinResponse) :
    Sound app peers size rounds (asks ++ [⟨rounds, host, answer⟩]) (j.take host answer) := by
  have hhost : host ∈ j.asking := hnext ▸ List.mem_cons_self
  have hnodup := h.asking.1
  rw [hnext, List.nodup_cons] at hnodup
  -- a join that still asks has not met all that it wants, so one more is not too many
  have hlt : j.joined.length < j.wanted := by
    cases asks with
    | nil => rw [h.joined]; exact h.positive
    | cons a rest => exact Nat.lt_of_not_le (of_decide_eq_false (hgoing (List.cons_ne_nil _ _)))
  have hentry : ((⟨rounds, host, answer⟩ : Ask).taken app).toList.length ≤ 1 :=
    Option.length_toList_le
  rw [take_eq j host answer rounds, hnext, List.tail_cons]
  exact
    { sameApp := h.sameApp
      wanted := h.wanted
      positive := h.positive
      candidates := h.candidates
      asking := ⟨hnodup.2, fun x hx => h.asking.2 (hnext ▸ List.mem_cons_of_mem _ hx)⟩
      asked := by
        intro a ha
        rcases List.mem_append.mp ha with ha | ha
        · exact h.asked a ha
        · rw [List.mem_singleton.mp ha]
          exact ⟨Nat.le_refl _, h.asking.2 hhost⟩
      joined := by
        rw [h.sameApp, h.joined, List.filterMap_append]
        cases hentry : (⟨rounds, host, answer⟩ : Ask).taken app with
        | none => rw [List.filterMap_cons_none hentry]; rfl
        | some entry => rw [List.filterMap_cons_some hentry]; rfl
      within := by
        rw [h.sameApp, List.length_append]
        show _ ≤ j.wanted
        omega
      fresh := by
        intro other hother a ha hmatters
        rcases List.mem_append.mp ha with ha | ha
        · exact h.fresh other (hnext ▸ List.mem_cons_of_mem _ hother) a ha hmatters
        · rw [List.mem_singleton.mp ha]
          rintro rfl
          exact hnodup.1 hother
      once := by
        rw [List.pairwise_append]
        refine ⟨h.once, List.pairwise_singleton _ _, ?_⟩
        intro a ha b hb hmatters
        rw [List.mem_singleton.mp hb] at hmatters ⊢
        exact h.fresh host hhost a ha hmatters }

/-- Another round asks everybody again who was not joined. -/
theorem nextRound (h : Sound app peers size rounds asks j) (chance : Chance) :
    Sound app peers size (rounds + 1) asks (j.nextRound chance).1 := by
  have hperm := Chance.shuffle_perm (j.candidates.filter fun host => !j.hasJoined host) chance
  have horder : (Chance.shuffle (j.candidates.filter fun host => !j.hasJoined host) chance).1.Nodup ∧
      (Chance.shuffle (j.candidates.filter fun host => !j.hasJoined host) chance).1 ⊆ peers :=
    ⟨hperm.nodup_iff.mpr (h.candidates.1.filter _), fun x hx =>
      h.candidates.2 (List.mem_filter.mp (hperm.mem_iff.mp hx)).1⟩
  exact
    { sameApp := h.sameApp
      wanted := h.wanted
      positive := h.positive
      candidates := horder
      asking := horder
      asked := fun a ha => ⟨Nat.le_succ_of_le (h.asked a ha).1, (h.asked a ha).2⟩
      joined := h.joined
      within := h.within
      fresh := by
        -- a host is asked again in a later round only if it has not joined yet
        rintro host hhost a ha (hround | hjoins) rfl
        · exact absurd (h.asked a ha).1 (by omega)
        · have hnot := (List.mem_filter.mp (hperm.mem_iff.mp hhost)).2
          obtain ⟨r, hanswer, happ⟩ := hjoins
          have hentry : a.taken app = some (a.host, r.snapshot) :=
            Ask.taken_eq_some.mpr ⟨rfl, r, hanswer, happ, rfl⟩
          have hmem : (a.host, r.snapshot) ∈ j.joined :=
            h.joined ▸ List.mem_filterMap.mpr ⟨a, ha, hentry⟩
          rw [hasJoined, List.any_eq_true.mpr ⟨_, hmem, decide_eq_true rfl⟩] at hnot
          cases hnot
      once := h.once }

/-- A join is sound at every point of its course. -/
theorem course (h : Sound app peers size 0 [] start) (hcourse : start.Course rounds asks j) :
    Sound app peers size rounds asks j := by
  induction hcourse with
  | begun => exact h
  | ask _ hgoing hnext answer ih => exact ih.take hgoing hnext answer
  | pause _ _ chance ih => exact { ih with }
  | round _ _ chance ih => exact ih.nextRound chance

/-- A join that is complete has joined as many hosts as there should be, and no host twice. -/
theorem joined_of_isComplete (h : Sound app peers size rounds asks j) (hcomplete : j.isComplete = true) :
    j.joined.length = min size peers.length ∧ (j.joined.map Prod.fst).Nodup ∧
      ∀ entry ∈ j.joined, entry.1 ∈ peers ∧ ∃ a ∈ asks, a.host = entry.1 ∧
        ∃ r, a.answer = some r ∧ r.app = app ∧ r.snapshot = entry.2 := by
  refine ⟨?_, ?_, ?_⟩
  · exact h.wanted ▸ Nat.le_antisymm h.within (of_decide_eq_true hcomplete)
  · rw [h.joined, List.map_filterMap, List.Nodup, List.pairwise_filterMap]
    refine h.once.imp fun {a b} hne => ?_
    intro x hx y hy
    obtain ⟨⟨_, s⟩, hentry, rfl⟩ := Option.map_eq_some_iff.mp hx
    obtain ⟨⟨_, s'⟩, hentry', rfl⟩ := Option.map_eq_some_iff.mp hy
    obtain ⟨rfl, -⟩ := Ask.taken_eq_some.mp hentry
    obtain ⟨rfl, -⟩ := Ask.taken_eq_some.mp hentry'
    exact hne (Or.inr (Ask.isSome_taken_iff.mp (hentry ▸ rfl)))
  · rintro ⟨host, s⟩ hmem
    rw [h.joined] at hmem
    obtain ⟨a, ha, hentry⟩ := List.mem_filterMap.mp hmem
    obtain ⟨rfl, hanswer⟩ := Ask.taken_eq_some.mp hentry
    exact ⟨(h.asked a ha).2, a, ha, rfl, hanswer⟩

end Sound

/-- The peers of a join are the given hosts without the own address. -/
theorem mem_peers : host ∈ Join.peers address hosts ↔ host ∈ hosts ∧ host ≠ address := by
  rw [Join.peers, List.mem_eraseDups, List.mem_filter, decide_eq_true_eq]

/-- Each peer counts once, however often it is given. -/
theorem length_peers (address : String) (hosts : List String) :
    (Join.peers address hosts).length = (hosts.toFinset.erase address).card := by
  have hnodup : (Join.peers address hosts).Nodup := Ring.nodup_eraseDups _
  rw [← List.toFinset_card_of_nodup hnodup]
  congr 1
  ext host
  rw [List.mem_toFinset, Finset.mem_erase, List.mem_toFinset, mem_peers, and_comm]

/-- A join that does not begin has nobody to ask. -/
theorem peers_eq_nil_of_begin? (h : begin? address settings incarnation hosts now = none) :
    Join.peers address hosts = [] := by
  rw [begin?] at h
  split at h
  · next hpeers => exact List.isEmpty_iff.mp hpeers
  · cases h

/-- A join begins with no round under way. -/
theorem asking_of_begin? (h : begin? address settings incarnation hosts now = some start) :
    start.asking = [] := by
  rw [begin?] at h
  split at h
  · cases h
  · obtain rfl := Option.some.inj h
    rfl

end

end Join

namespace World

open Network

variable {w : World} {run : Run} {index : ℕ} {n : Node} {start join : Join} {gossip : Bool}
  {rounds : ℕ} {asks : List Join.Ask}

/-- What becomes of a join of which this is the course so far: the node gives up, the join is complete,
    or it has gone on and is kept. -/
inductive Follows (w : World) (run : Run) (index : ℕ) (n : Node) (gossip : Bool) (start join : Join) :
    World → Prop
  | failed {e : NodeError} (h : GivesUp n join w.time e) :
      Follows w run index n gossip start join (w.failBootstrap run.id index n gossip e)
  | complete {rounds : ℕ} {asks : List Join.Ask} {j : Join} (h : start.Course rounds asks j)
      (hcomplete : j.isComplete = true) :
      Follows w run index n gossip start join (w.completeBootstrap run.id index n gossip j.joined)
  | onward {w' : World} {run' : Run} {rounds : ℕ} {asks : List Join.Ask} {j : Join}
      (h : start.Course rounds asks j) (hgoing : asks ≠ [] → j.isComplete = false)
      (hrun : w'.run? run.id = some run') (hactivity : run'.activity = .bootstrap index j gossip) :
      Follows w run index n gossip start join w'

/-- A run that is put back is found under its number. -/
theorem run?_putRun (run' : Run) (hrun : w.run? run'.id = some run) :
    (w.putRun run').run? run'.id = some run' := by
  rw [run?] at hrun
  have hid : run.id = run'.id :=
    of_decide_eq_true (List.find?_some (p := fun r : Run => decide (r.id = run'.id)) hrun)
  rw [run?, putRun, List.find?_map]
  -- putting a run back does not change under which number anything is found
  have htest : ((fun r : Run => decide (r.id = run'.id)) ∘ fun r => if r.id = run'.id then run' else r) =
      fun r => decide (r.id = run'.id) := by
    funext r
    rw [Function.comp_apply]
    split
    · next h => simp [h]
    · rfl
  rw [htest, hrun, Option.map_some, if_pos hid]

variable (index gossip) in
/-- Asking the next host, or pausing, keeps to the course. -/
theorem run?_askHost (halive : n.destroyed = false) (hrun : w.run? run.id = some run)
    (hcourse : start.Course rounds asks join) (hgoing : asks ≠ [] → join.isComplete = false) :
    ∃ run' rounds' asks' j, (w.askHost run index n join gossip).run? run.id = some run' ∧
      run'.activity = .bootstrap index j gossip ∧ start.Course rounds' asks' j ∧
      (asks' ≠ [] → j.isComplete = false) := by
  rw [askHost]
  split
  · next hover =>
    exact ⟨_, rounds, asks, _, run?_putRun (w := { w with chance := (join.pause w.chance).2.2 }) _ hrun,
      rfl, hcourse.pause hover w.chance, hgoing⟩
  · rw [if_neg (ne_true_of_eq_false halive)]
    refine ⟨{ run with activity := .bootstrap index join gossip }, rounds, asks, join, ?_, rfl, hcourse,
      hgoing⟩
    have hput := run?_putRun { run with activity := .bootstrap index join gossip } hrun
    obtain ⟨calls, errands, hsend⟩ := send_eq _ _ _ _ _ _ _ _ _ _
    rw [hsend]
    exact hput

/-- Taking an answer follows the course, in the round or to its completion. -/
theorem follows_take (halive : n.destroyed = false) (hrun : w.run? run.id = some run)
    (hcourse : start.Course rounds asks join) (hgoing : asks ≠ [] → join.isComplete = false)
    {host : String} {rest : List String} (hnext : join.asking = host :: rest)
    (answer : Option JoinResponse) :
    Follows w run index n gossip start join
      (if (join.take host answer).isComplete then
        w.completeBootstrap run.id index n gossip (join.take host answer).joined
      else w.askHost run index n (join.take host answer) gossip) := by
  have hcourse' := hcourse.ask hgoing hnext answer
  split
  · next hcomplete => exact .complete hcourse' hcomplete
  · next hmore =>
    obtain ⟨run', rounds', asks', j, hrun', hactivity', hcourse'', hgoing''⟩ :=
      run?_askHost index gossip halive hrun hcourse' fun _ =>
        Bool.eq_false_of_not_eq_true hmore
    exact .onward hcourse'' hgoing'' hrun' hactivity'

/-- A host that was asked answers, or does not. -/
theorem follows_takeAnswer (hrun : w.run? run.id = some run)
    (hactivity : run.activity = .bootstrap index join gossip) (hnode : w.nodeAt? index = some n)
    (hcourse : start.Course rounds asks join) (hgoing : asks ≠ [] → join.isComplete = false)
    {host : String} {rest : List String} (hnext : join.asking = host :: rest) (reply : Reply) :
    Follows w run index n gossip start join (w.takeAnswer run.id host reply) := by
  unfold takeAnswer
  rw [hrun]
  dsimp only
  rw [hactivity]
  dsimp only
  rw [hnode]
  dsimp only
  cases hdestroyed : n.destroyed with
  | true => exact .failed (.destroyed hdestroyed)
  | false =>
      rw [if_neg Bool.false_ne_true]
      split
      · next hlate => exact .failed (.overdue hdestroyed hlate)
      · exact follows_take hdestroyed hrun hcourse hgoing hnext _

/-- A pause is over. -/
theorem follows_resume (hrun : w.run? run.id = some run)
    (hactivity : run.activity = .bootstrap index join gossip) (hnode : w.nodeAt? index = some n)
    (hcourse : start.Course rounds asks join) (hgoing : asks ≠ [] → join.isComplete = false)
    (hover : join.asking = []) : Follows w run index n gossip start join (w.resume run.id) := by
  rw [resume, hrun]
  dsimp only
  rw [hactivity]
  dsimp only
  rw [hnode]
  dsimp only
  cases hdestroyed : n.destroyed with
  | true => exact .failed (.destroyed hdestroyed)
  | false =>
      rw [if_neg Bool.false_ne_true]
      split
      · next hlate => exact .failed (.overdue hdestroyed hlate)
      · obtain ⟨run', rounds', asks', j, hrun', hactivity', hcourse', hgoing'⟩ :=
          run?_askHost (w := { w with chance := (join.nextRound w.chance).2 }) index gossip hdestroyed
            hrun (hcourse.round hover w.chance) hgoing
        exact .onward hcourse' hgoing' hrun' hactivity'

/-- A bootstrap that is accepted and has hosts to ask begins the course, under a number that no other run
    has. -/
theorem run?_bootstrap {n' : Node} {hosts : List String} (hnode : w.nodeAt? index = some n)
    (hbegin : n.beginBootstrap w.moment = .done n' (.ok ()))
    (hjoin : n'.beginJoin w.moment hosts = some start) (hfresh : w.run? w.serial = none)
    (gossip : Bool) :
    ∃ run rounds asks j, (w.bootstrap index hosts gossip).1.run? w.serial = some run ∧
      run.activity = .bootstrap index j gossip ∧ start.Course rounds asks j ∧
      (asks ≠ [] → j.isComplete = false) := by
  rw [bootstrap, hnode]
  dsimp only
  rw [hbegin]
  dsimp only
  have hmoment : (w.putNode index n').moment = w.moment := rfl
  rw [hmoment, hjoin]
  have hcourse : start.Course 1 [] (start.nextRound w.chance).1 :=
    Join.Course.begun.round (Join.asking_of_begin? hjoin) w.chance
  refine run?_askHost index gossip (Node.alive_of_beginBootstrap hbegin) ?_ hcourse
    fun hne => absurd rfl hne
  have hfresh : w.runs.find? (fun r => decide (r.id = w.serial)) = none := hfresh
  show (w.runs ++ [_]).find? (fun r : Run => decide (r.id = w.serial)) = _
  rw [List.find?_append, hfresh, Option.none_or, List.find?_singleton]
  exact if_pos (decide_eq_true rfl)

end World

namespace Join

/-- **A join joins as many hosts as it should.** Whatever hosts are listed, repetitions and the node itself
    among them, whatever each of them answers in each round, and in whatever order they are asked: nobody
    is asked twice in a round, or again after it has taken the node in. If the join succeeds, the hosts
    that were joined are different ones from the list and not the node itself, each of them took the node
    in and sent the table that it stands with, and there are as many as the settings want, or all there
    are if those are fewer.

    The join that a node on a network makes goes on like that until the node gives up. -/
theorem joins_as_wanted {settings : Settings} (hvalid : settings.IsValid) (address : String)
    (incarnation : UInt64) (hosts : List String) (now : ℕ) :
    (∀ start rounds asks j, begin? address settings incarnation hosts now = some start →
      start.Course rounds asks j →
        asks.Pairwise (fun a b => a.round = b.round → a.host ≠ b.host) ∧
        asks.Pairwise fun a b => a.Joins settings.app → a.host ≠ b.host) ∧
    (∀ asks joined, Succeeds address settings incarnation hosts now asks joined →
      joined.length = min settings.joinSize.toNat (hosts.toFinset.erase address).card ∧
      (joined.map Prod.fst).Nodup ∧
      ∀ host snapshot, (host, snapshot) ∈ joined → host ∈ hosts ∧ host ≠ address ∧
        ∃ a ∈ asks, a.host = host ∧
          ∃ r, a.answer = some r ∧ r.app = settings.app ∧ r.snapshot = snapshot) ∧
    (∀ (w : World) (index : ℕ) (n n' : Node) (start : Join) (gossip : Bool),
      w.nodeAt? index = some n → n.beginBootstrap w.moment = .done n' (.ok ()) →
        n'.beginJoin w.moment hosts = some start → w.run? w.serial = none →
          ∃ run rounds asks j, (w.bootstrap index hosts gossip).1.run? w.serial = some run ∧
            run.activity = .bootstrap index j gossip ∧ start.Course rounds asks j ∧
            (asks ≠ [] → j.isComplete = false)) ∧
    ∀ (w : World) (run : Network.Run) (index : ℕ) (n : Node) (gossip : Bool) (start join : Join)
        (rounds : ℕ) (asks : List Ask),
      w.run? run.id = some run → run.activity = .bootstrap index join gossip →
        w.nodeAt? index = some n → start.Course rounds asks join →
          (asks ≠ [] → join.isComplete = false) →
            (∀ host rest reply, join.asking = host :: rest →
              w.Follows run index n gossip start join (w.takeAnswer run.id host reply)) ∧
            (join.asking = [] → w.Follows run index n gossip start join (w.resume run.id)) := by
  refine ⟨?_, ?_, ?_, ?_⟩
  · intro start rounds asks j hbegin hcourse
    have hsound := (Sound.begun hvalid hbegin).course hcourse
    exact ⟨hsound.once.imp fun h hround => h (Or.inl hround),
      hsound.once.imp fun h hjoins => h (Or.inr hjoins)⟩
  · intro asks joined hsucceeds
    rw [← length_peers]
    -- who has no peers joins alone at once
    cases hsucceeds with
    | alone h =>
        refine ⟨?_, List.nodup_nil, nofun⟩
        rw [peers_eq_nil_of_begin? h]
        exact (Nat.min_zero _).symm
    | complete hbegin hcourse hcomplete =>
        have hsound := (Sound.begun hvalid hbegin).course hcourse
        obtain ⟨hlength, hnodup, hentries⟩ := hsound.joined_of_isComplete hcomplete
        refine ⟨hlength, hnodup, fun host snapshot hmem => ?_⟩
        obtain ⟨hpeer, hanswered⟩ := hentries _ hmem
        exact ⟨(mem_peers.mp hpeer).1, (mem_peers.mp hpeer).2, hanswered⟩
  · intro w index n n' start gossip hnode hbegin hjoin hfresh
    exact World.run?_bootstrap hnode hbegin hjoin hfresh gossip
  · intro w run index n gossip start join rounds asks hrun hactivity hnode hcourse hgoing
    exact ⟨fun host rest reply hnext =>
        World.follows_takeAnswer hrun hactivity hnode hcourse hgoing hnext reply,
      World.follows_resume hrun hactivity hnode hcourse hgoing⟩

/-- The node `a` wants two hosts, and its list names itself and one host twice. The host `b` answers for
    another application in the first round, and takes the node in in the second one. -/
theorem joins_as_wanted_in_second_round :
    let settings := { Settings.default with joinSize := 2 }
    let hosts := ["b", "a", "c", "b"]
    let other : JoinResponse := ⟨"other", "b", [], none⟩
    let c : JoinResponse := ⟨"swimring", "c", [⟨"c", .alive, 4, "c", 4, 0⟩], some 7⟩
    let b : JoinResponse := ⟨"swimring", "b", [⟨"b", .alive, 2, "b", 2, 0⟩], none⟩
    settings.IsValid ∧
      Succeeds "a" settings 5 hosts 0 [⟨1, "b", some other⟩, ⟨1, "c", some c⟩, ⟨2, "b", some b⟩]
        [("c", c.snapshot), ("b", b.snapshot)] ∧
      [("c", c.snapshot), ("b", b.snapshot)].length = min 2 (hosts.toFinset.erase "a").card := by
  intro settings hosts other c b
  let start : Join :=
    { settings := settings
      request := ⟨"swimring", "a", 5⟩
      wanted := 2
      candidates := ["b", "c"]
      asking := []
      joined := []
      delay := .ofMillis 100
      started := 0 }
  have hbegin : begin? "a" settings 5 hosts 0 = some start := rfl
  have h : start.Course 1 [] { start with asking := ["b", "c"] } := Course.begun.round rfl .none
  have h := (h.ask nofun rfl (some other)).ask (fun _ => rfl) rfl (some c)
  have h : start.Course 2 _ _ := (h.pause rfl .none).round rfl .none
  have h := h.ask (fun _ => rfl) (show _ = ["b"] from rfl) (some b)
  have hsucceeds := Succeeds.complete hbegin h rfl
  have hvalid : settings.IsValid := by decide
  exact ⟨hvalid, hsucceeds, ((joins_as_wanted hvalid "a" 5 hosts 0).2.1 _ _ hsucceeds).1⟩

end Join

end GossipRing
