import GossipRing.Proofs.Attestation
import GossipRing.Proofs.Cluster

/-!
# Nobody speaks for somebody else

Toward: nobody can revive or retire another member. That a member is alive, or that it left, is said
by everybody: by helpers that reach it, by nodes that it asks to be taken in, and by all who pass on
what they heard, from their tables or from what they held back.

* **`Cluster.Vouched`** — all that the nodes hold and all that was ever sent or put off meets a
  condition. `Turn.vouched` says that a turn keeps this, if the node's own row may be taken for
  granted.
* **`Cluster.Course`** — a run with all its moments, the last one first.
* **`Cluster.Attested`** — the condition: the member itself showed it at some moment of the run.
* **`Cluster.recorded_as_shown`** — so whatever a table records of a member, the member was alive at
  that incarnation in its own table, and left in its own table if it is recorded to have left.
-/

namespace GossipRing

variable {ι : Type} {P : Member → Prop}

/-! ## Messages and tasks -/

theorem Vouches.wellFormed {claims : List Change} (h : Vouches P claims) :
    Vouches P (Change.wellFormed claims) := fun c hc => h c (Change.mem_of_mem_wellFormed hc)

def Request.Vouched (P : Member → Prop) : Request → Prop
  | join r => P ⟨r.source, .alive, r.incarnation⟩
  | ping r => Vouches P r.changes
  | pingReq r => Vouches P r.changes

def Response.Vouched (P : Member → Prop) : Response → Prop
  | join r => Vouches P r.membership
  | ping r => Vouches P r.changes
  | pingReq r => Vouches P r.changes

def Task.Vouched (P : Member → Prop) : Task ι → Prop
  | probe target => P target
  | relay _ r => Vouches P r.changes
  | join j => j.Vouched P
  | expiry e => P e.mention.suspected

def Item.Vouched (P : Member → Prop) : Item ι → Prop
  | request _ _ r => r.Vouched P
  | answer _ r => r.Vouched P
  | task _ t => t.Vouched P

namespace Cluster

/-- All that is held, was sent or was put off meets the condition. -/
structure Vouched (P : Member → Prop) (w : Cluster ι) : Prop where
  nodes : ∀ i, (w.nodes i).Vouched P
  items : ∀ item ∈ w.items, item.Vouched P

section

variable {w : Cluster ι} {i : ι} {now : Moment} {n' : Node} {new : Set (Item ι)}

theorem Vouched.mono {Q : Member → Prop} (h : w.Vouched P) (hweaker : ∀ m, P m → Q m) :
    w.Vouched Q where
  nodes i := (h.nodes i).mono hweaker
  items item hitem := by
    have hclaims : ∀ {claims}, Vouches P claims → Vouches Q claims := fun h => h.mono hweaker
    have hmet := h.items item hitem
    cases item with
    | request sender target r =>
        cases r with
        | join r => exact hweaker _ hmet
        | ping r => exact hclaims hmet
        | pingReq r => exact hclaims hmet
    | answer asker r =>
        cases r with
        | join r => exact hclaims hmet
        | ping r => exact hclaims hmet
        | pingReq r => exact hclaims hmet
    | task owner t =>
        cases t with
        | probe target => exact hweaker _ hmet
        | relay asker r => exact hclaims hmet
        | join j => exact Join.Vouched.mono hmet hweaker
        | expiry e => exact hweaker _ hmet

/-- **A turn is told nothing that does not meet the condition**, and so keeps it. -/
theorem Turn.vouched (hP : Indifferent P) (hw : w.Sound) (hv : w.Vouched P)
    (h : w.Turn i now n' new) (hshows : n'.membership.Shows P)
    (hleaves : n'.membership.ShowsLeave P) : n'.Vouched P ∧ ∀ item ∈ new, item.Vouched P := by
  have hn := hv.nodes i
  have hnothing : ∀ item ∈ (∅ : Set (Item ι)), item.Vouched P :=
    fun item hitem => absurd hitem (Set.notMem_empty item)
  have hone : ∀ {item : Item ι}, item.Vouched P → ∀ sent ∈ ({item} : Set (Item ι)), sent.Vouched P :=
    fun hitem sent hsent => hsent ▸ hitem
  -- what a turn writes or sends comes from the node, from the wire, or from the node's own showing
  cases h with
  | beginBootstrap hdone => exact ⟨hn.beginBootstrap (hw.here i) hdone hshows, hnothing⟩
  | beginJoin hbegun hjoin =>
      have halive : ∀ row, P row → P { row with status := .alive } :=
        fun row hrow => hP row .alive hrow (by decide)
      exact ⟨hn, hone (hn.beginJoin halive (hw.here i) (hw.known i hbegun) hjoin)⟩
  | startAlone hbegun hjoin hdone =>
      exact ⟨hn.completeBootstrap (fun s hs => absurd hs List.not_mem_nil) hdone hshows, hnothing⟩
  | nextRound h chance =>
      have hjoin : Join.Vouched P _ := hv.items _ h
      exact ⟨hn, hone ⟨hjoin.request, hjoin.joined⟩⟩
  | askHost h hhost => exact ⟨hn, hone (show Join.Vouched P _ from hv.items _ h).request⟩
  | @hearHost join host rest sent received h hhost hsent hread =>
      rw [JoinResponse.ofJson?_toJson] at hread
      obtain rfl := Option.some.inj hread
      have hjoin : Join.Vouched P join := hv.items _ h
      refine ⟨hn, hone (hjoin.take host fun r hr => ?_)⟩
      obtain rfl := Option.some.inj hr
      exact Vouches.wellFormed (hv.items _ hsent)
  | @missHost join host rest h hhost =>
      have hjoin : Join.Vouched P join := hv.items _ h
      exact ⟨hn, hone (hjoin.take host fun r hr => nomatch hr)⟩
  | pauseJoin h chance =>
      have hjoin : Join.Vouched P _ := hv.items _ h
      exact ⟨hn, hone ⟨hjoin.request, hjoin.joined⟩⟩
  | completeBootstrap h hcomplete hdone =>
      have hjoin : Join.Vouched P _ := hv.items _ h
      exact ⟨hn.completeBootstrap hjoin.snapshots hdone hshows, hnothing⟩
  | failBootstrap h => exact ⟨hn.idle (.failBootstrap _), hnothing⟩
  | pick hpick =>
      exact ⟨hn.idle (.pickTarget hpick), hone (hn.table.rows _ (Node.mem_of_pickTarget hpick))⟩
  | pickNobody hpick => exact ⟨hn.idle (.pickTarget hpick), hnothing⟩
  | ping h => exact ⟨hn.idle (.issue _), hone hn.issued⟩
  | hearPong hsent hread hdone =>
      rw [PingResponse.ofJson?_toJson] at hread
      obtain rfl := Option.some.inj hread
      exact ⟨hn.absorb (Vouches.wellFormed (hv.items _ hsent)) hdone hshows, hnothing⟩
  | askHelpers h hcompose =>
      obtain ⟨hafter, hhanded⟩ := hn.composePingReq hcompose
      refine ⟨hafter, ?_⟩
      rintro item ⟨helper, -, rfl⟩
      exact hhanded
  | hearReport hsent hread hdone =>
      rw [PingReqResponse.ofJson?_toJson] at hread
      obtain rfl := Option.some.inj hread
      exact ⟨hn.absorb (Vouches.wellFormed (hv.items _ hsent)) hdone hshows, hnothing⟩
  | judge verdict h hdone => exact ⟨hn.judge hP (hv.items _ h) hdone hshows, hnothing⟩
  | runOut =>
      refine ⟨hn.idle (.runOut _ _), ?_⟩
      rintro item ⟨e, he, rfl⟩
      exact hn.expiries he
  | expire h hdone => exact ⟨hn.expire hP (hv.items _ h) hdone hshows, hnothing⟩
  | answerJoin hsent hread hdone =>
      rw [JoinRequest.ofJson?_toJson] at hread
      obtain rfl := Option.some.inj hread
      obtain ⟨hafter, hanswer⟩ := hn.answerJoin (hv.items _ hsent) hdone hshows
      exact ⟨hafter, hone hanswer⟩
  | answerPing hsent hread hdone =>
      rw [PingRequest.ofJson?_toJson] at hread
      obtain rfl := Option.some.inj hread
      have hgiven : Vouches P _ := hv.items _ hsent
      obtain ⟨hafter, hanswer⟩ := hn.answerPing hgiven.wellFormed hdone hshows
      exact ⟨hafter, hone hanswer⟩
  | receivePingReq hsent hread hdone =>
      rw [PingReqRequest.ofJson?_toJson] at hread
      obtain rfl := Option.some.inj hread
      have hgiven : Vouches P _ := hv.items _ hsent
      exact ⟨hn.update hgiven.wellFormed hdone hshows, hone hgiven.wellFormed⟩
  | relayPing h => exact ⟨hn.idle (.issue _), hone hn.issued⟩
  | answerPingReq reached h => exact ⟨hn.idle (.answerWith _ _ _), hone (hn.answerWith _ _)⟩
  | startGossip => exact ⟨hn.idle (.startGossip _), hnothing⟩
  | stopGossip => exact ⟨hn.idle (.stopGossip _), hnothing⟩
  | leave hdone => exact ⟨hn.leave hP (hw.here i) hdone hshows hleaves, hnothing⟩
  | rejoin hdone => exact ⟨hn.rejoin hdone hshows, hnothing⟩
  | reap hdone => exact ⟨hn.reap hP hdone hshows, hnothing⟩
  | configure hdone => exact ⟨hn.idle (.configure hdone), hnothing⟩
  | destroy => exact ⟨hn.idle (.destroy _), hnothing⟩

end

/-! ## What the members themselves show -/

/-- At one of these moments the row was that of the member in its own table. -/
def Showed (moments : List (Cluster ι)) (row : Member) : Prop :=
  ∃ w ∈ moments, ∃ i, (w.nodes i).membership.localRow? = some row

/-- The member showed that it was alive, at the incarnation, and if it left it showed that, too. -/
structure Attested (moments : List (Cluster ι)) (m : Member) : Prop where
  alive : Showed moments { m with status := .alive }
  left : m.status = .leave → Showed moments m

theorem indifferent_attested (moments : List (Cluster ι)) : Indifferent (Attested moments) :=
  fun _ _ h hstays => ⟨h.alive, fun hleft => absurd hleft hstays⟩

variable {w : Cluster ι} {past : List (Cluster ι)}

/-- What was attested stays so. -/
theorem Attested.later {m : Member} (h : Attested past m) (w : Cluster ι) :
    Attested (w :: past) m := by
  have hlater : ∀ {row}, Showed past row → Showed (w :: past) row :=
    fun ⟨v, hv, hrow⟩ => ⟨v, List.mem_cons_of_mem _ hv, hrow⟩
  exact ⟨hlater h.alive, fun hleft => hlater (h.left hleft)⟩

/-- A node attests what its own row says. -/
theorem shows_attested (w : Cluster ι) (past : List (Cluster ι)) (i : ι) :
    (w.nodes i).membership.Shows (Attested (w :: past)) ∧
      (w.nodes i).membership.ShowsLeave (Attested (w :: past)) := by
  have hshowed : ∀ row, (w.nodes i).membership.localRow? = some row → Showed (w :: past) row :=
    fun row hrow => ⟨w, List.mem_cons_self, i, hrow⟩
  constructor
  · rintro row hrow halive
    refine ⟨?_, fun _ => hshowed row hrow⟩
    rw [← halive]
    exact hshowed row hrow
  · rintro row hrow - hbefore
    exact ⟨hbefore.alive, fun _ => hshowed row hrow⟩

/-! ## Every run, moment by moment -/

variable [DecidableEq ι]

/-- The moments of a run, the last one first. -/
inductive Course : List (Cluster ι) → Prop
  | fresh {w : Cluster ι} (h : w.Fresh) : Course [w]
  | turn {w : Cluster ι} {past : List (Cluster ι)} {n : Node} {new : Set (Item ι)}
      (h : Course (w :: past)) (i : ι) (now : Moment) (hturn : w.Turn i now n new) :
      Course (w.after i n new :: w :: past)

namespace Course

/-- Every moment of a run is reachable, and the nodes have the addresses that they have at the end. -/
theorem reachable (h : Course (w :: past)) : ∀ v ∈ w :: past,
    v.Reachable ∧ ∀ i, (v.nodes i).address = (w.nodes i).address := by
  generalize hmoments : w :: past = moments at h
  induction h generalizing w past with
  | fresh hfresh =>
      obtain ⟨rfl, rfl⟩ := List.cons.inj hmoments
      intro v hv
      obtain rfl := List.mem_singleton.mp hv
      exact ⟨.fresh hfresh, fun _ => rfl⟩
  | @turn before past' n new _ i now hturn ih =>
      obtain ⟨rfl, rfl⟩ := List.cons.inj hmoments
      have hbefore := ih rfl
      have hreachable := (hbefore before List.mem_cons_self).1
      intro v hv
      rcases List.mem_cons.mp hv with rfl | hv
      · exact ⟨hreachable.turn i now hturn, fun _ => rfl⟩
      · refine ⟨(hbefore v hv).1, fun j => ?_⟩
        rw [(hbefore v hv).2 j, (hturn.inherits hreachable.sound j).address]

/-- **Whatever is held, was sent or was put off is attested.** -/
theorem vouched (h : Course (w :: past)) : w.Vouched (Attested (w :: past)) := by
  generalize hmoments : w :: past = moments at h
  induction h generalizing w past with
  | @fresh w hfresh =>
      obtain ⟨rfl, rfl⟩ := List.cons.inj hmoments
      refine ⟨fun i => ?_, fun item hitem => ?_⟩
      · obtain ⟨hash, address, settings, chance, hcreated⟩ := hfresh.created i
        exact Node.vouched_createWith _ hcreated
      · rw [hfresh.quiet] at hitem
        exact absurd hitem (Set.notMem_empty item)
  | @turn before past' n new hcourse i now hturn ih =>
      obtain ⟨rfl, rfl⟩ := List.cons.inj hmoments
      have hsound := (hcourse.reachable before List.mem_cons_self).1.sound
      -- the past only grows, so what was attested stays so
      have hv := (ih rfl).mono fun m hm => hm.later (before.after i n new)
      have hshows := shows_attested (before.after i n new) (before :: past') i
      rw [nodes_after_self] at hshows
      obtain ⟨hafter, hnew⟩ :=
        hturn.vouched (indifferent_attested _) hsound hv hshows.1 hshows.2
      refine ⟨fun j => ?_, fun item hitem => hitem.elim (hv.items item) (hnew item)⟩
      by_cases hj : j = i
      · subst hj
        rw [nodes_after_self]
        exact hafter
      · rw [nodes_after_of_ne hj]
        exact hv.nodes j

/-- Only the member of an address has a row of its own at it. -/
theorem of_showed (h : Course (w :: past)) {row : Member} (hshowed : Showed (w :: past) row) {i : ι}
    (hi : (w.nodes i).address = row.address) :
    ∃ v ∈ w :: past, (v.nodes i).membership.localRow? = some row := by
  obtain ⟨v, hv, k, hrow⟩ := hshowed
  obtain ⟨hreachable, haddresses⟩ := h.reachable v hv
  have hlocal : row.address = (v.nodes k).membership.here :=
    (Membership.mem_of_row?_eq_some hrow).2
  have hk : (v.nodes k).address = (v.nodes i).address :=
    calc (v.nodes k).address
      _ = (v.nodes k).membership.here := (hreachable.sound.here k).symm
      _ = row.address := hlocal.symm
      _ = (w.nodes i).address := hi.symm
      _ = (v.nodes i).address := (haddresses i).symm
  exact ⟨v, hv, hreachable.sound.distinct k i hk ▸ hrow⟩

end Course

/-- **Nobody revives or retires somebody else.** Whoever is recorded in a table is one of the nodes.
    At this moment of the run or an earlier one the node's own row said that it is alive, at the
    incarnation that is recorded, and if it is recorded that it left, its own row said that, too. -/
theorem recorded_as_shown (h : Course (w :: past)) (j : ι) {row : Member}
    (hrow : row ∈ (w.nodes j).membership.rows) :
    ∃ i, (w.nodes i).address = row.address ∧
      (∃ v ∈ w :: past,
        (v.nodes i).membership.localRow? = some ⟨row.address, .alive, row.incarnation⟩) ∧
      (row.status = .leave → ∃ v ∈ w :: past, (v.nodes i).membership.localRow? = some row) := by
  have hattested := ((h.vouched).nodes j).table.rows row hrow
  obtain ⟨v, hv, i, hshowed⟩ := hattested.alive
  obtain ⟨hreachable, haddresses⟩ := h.reachable v hv
  have hlocal : row.address = (v.nodes i).membership.here :=
    (Membership.mem_of_row?_eq_some hshowed).2
  have hi : (w.nodes i).address = row.address :=
    calc (w.nodes i).address
      _ = (v.nodes i).address := (haddresses i).symm
      _ = (v.nodes i).membership.here := (hreachable.sound.here i).symm
      _ = row.address := hlocal.symm
  exact ⟨i, hi, ⟨v, hv, hshowed⟩, fun hleft => h.of_showed (hattested.left hleft) hi⟩

/-- `b` joins by way of `a`, which has not begun, and leaves. `a` then starts alone, hears from `b`
    that it left, and records it. -/
theorem recorded_as_shown_after_departure :
    ∃ (w : Cluster Bool) (past : List (Cluster Bool)), Course (w :: past) ∧
      ⟨"b", .leave, 8⟩ ∈ (w.nodes false).membership.rows ∧
      ∃ i, (w.nodes i).address = "b" ∧
        (∃ v ∈ w :: past, (v.nodes i).membership.localRow? = some ⟨"b", .alive, 8⟩) ∧
        ∃ v ∈ w :: past, (v.nodes i).membership.localRow? = some ⟨"b", .leave, 8⟩ := by
  have h : Course [pair] := by
    refine .fresh ⟨?_, by decide, by decide, rfl⟩
    intro i
    refine ⟨hash32, if i then "b" else "a", .default, .none, ?_⟩
    cases i <;> rfl
  -- `b` joins by way of `a`, which has not begun
  have h := h.turn true ⟨8, 0⟩ (.beginBootstrap
    (Attempt.eq_done_of_result? (show _ = some (.ok ()) by decide +kernel)))
  have h := h.turn true ⟨8, 0⟩ (.beginJoin (by decide +kernel)
    (show Node.beginJoin _ _ ["a"] = some _ from rfl))
  have h := h.turn true ⟨8, 1⟩ (.nextRound (by exact Or.inr rfl) .none)
  have h := h.turn true ⟨8, 1⟩ (.askHost (by exact Or.inr rfl) (show _ = ["a"] by decide +kernel))
  have h := h.turn false ⟨8, 2⟩ (.answerJoin (by exact Or.inr rfl) (JoinRequest.ofJson?_toJson _)
    (Attempt.eq_done_of_result? (show _ = some (Except.ok _) from rfl)))
  have h := h.turn true ⟨8, 3⟩ (.hearHost (by exact Or.inl (Or.inl (Or.inr rfl)))
    (show _ = ["a"] by decide +kernel) (by exact Or.inr rfl) (JoinResponse.ofJson?_toJson _))
  have h := h.turn true ⟨8, 4⟩ (.completeBootstrap (by exact Or.inr rfl) (by decide +kernel)
    (Attempt.eq_done_of_result? (show _ = some [] by decide +kernel)))
  -- it leaves
  have h := h.turn true ⟨9, 5⟩ (.leave
    (Attempt.eq_done_of_result? (show _ = some (.ok ()) by decide +kernel)))
  -- `a` starts alone, and hears of it when it probes `b`
  have h := h.turn false ⟨10, 6⟩ (.beginBootstrap
    (Attempt.eq_done_of_result? (show _ = some (.ok ()) by decide +kernel)))
  have h := h.turn false ⟨10, 6⟩ (.startAlone (by decide +kernel)
    (show Node.beginJoin _ _ ["a"] = none by decide +kernel)
    (Attempt.eq_done_of_result? (show _ = some [_] from rfl)))
  have h := h.turn false ⟨11, 7⟩ (.pick (show Node.pickTarget _ .none = (some _, _, _) from rfl))
  have h := h.turn false ⟨11, 7⟩ (.ping (by exact Or.inr rfl))
  have h := h.turn true ⟨11, 8⟩ (.answerPing (by exact Or.inr rfl) (PingRequest.ofJson?_toJson _)
    (Attempt.eq_done_of_result? (show _ = some _ from rfl)))
  have h := h.turn false ⟨11, 9⟩ (.hearPong (by exact Or.inr rfl) (PingResponse.ofJson?_toJson _)
    (Attempt.eq_done_of_result? (show _ = some [_] from rfl)))
  obtain ⟨i, hi, halive, hleft⟩ := recorded_as_shown h false
    (show (⟨"b", .leave, 8⟩ : Member) ∈ _ by decide +kernel)
  exact ⟨_, _, h, by decide +kernel, i, hi, halive, hleft rfl⟩

end Cluster

end GossipRing
