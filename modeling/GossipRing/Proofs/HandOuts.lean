import GossipRing.Piggyback
import Mathlib.Data.List.Induction
import Mathlib.Data.List.Nodup
import Mathlib.Data.Nat.Notation

/-!
# Who is handed out what, and how often

Toward: a claim that is recorded goes out with the next messages, as often as the limit says, and then
no more. The buffer counts for each claim, drops those that went out often enough while it hands out
the others, and moves a claim to the back when there is news about its member.

* **`Piggyback.Use`**, **`Piggyback.serve`** — claims are recorded and handed out, in any order.
* **`Piggyback.latest`** — read off the uses alone: the claims that nothing recorded later replaces, in
  the order in which they were recorded, each with the number of issues since.
* **`Piggyback.standing`** — the same, with what waited in the buffer before. What waits in the end are
  those that went out so often that the next issue drops them, or less (`pending_serve`).
* **`Piggyback.handed_out_first`** — what each issue hands out, and what becomes of each claim.
-/

namespace GossipRing

/-- A claim that has gone out so many times more. -/
def Pending.later (k : ℕ) (p : Pending) : Pending := { p with issued := p.issued + k }

namespace Piggyback

/-! ## Uses of a buffer -/

/-- A claim is recorded, or the claims that may still go out are handed out. -/
inductive Use where
  | record (c : Change)
  | issue
  deriving DecidableEq

/-- Uses in order, and what each issue among them handed out. -/
def serve (b : Piggyback) : List Use → Piggyback × List (List Change)
  | [] => (b, [])
  | .record c :: rest => serve (b.record c) rest
  | .issue :: rest =>
    let (b, changes) := b.issue
    let (b, handed) := serve b rest
    (b, changes :: handed)

/-- The members that something is recorded about. -/
def recorded (uses : List Use) : List String :=
  uses.filterMap fun
    | .record c => some c.address
    | .issue => none

def issues (uses : List Use) : ℕ := uses.count .issue

/-- The claims that nothing recorded later replaces, in the order in which they were recorded, each with
    the number of issues since. -/
def latest : List Use → List Pending
  | [] => []
  | .record c :: rest =>
    if c.address ∈ recorded rest then latest rest else ⟨c, issues rest⟩ :: latest rest
  | .issue :: rest => latest rest

/-- What waited before and is not replaced, and then the claims that were recorded since. The counts are
    those of all issues since a claim was recorded. -/
def standing (b : Piggyback) (uses : List Use) : List Pending :=
  (b.pending.filter fun p => p.change.address ∉ recorded uses).map (Pending.later (issues uses)) ++
    latest uses

section

variable {b : Piggyback} {c d : Change} {p : Pending} {uses front : List Use} {i : ℕ}

/-! ## One more use -/

theorem recorded_append (front back : List Use) :
    recorded (front ++ back) = recorded front ++ recorded back :=
  List.filterMap_append

theorem mem_recorded_concat {address : String} :
    address ∈ recorded (uses ++ [.record c]) ↔ address ∈ recorded uses ∨ address = c.address := by
  rw [recorded_append, List.mem_append]
  exact or_congr_right List.mem_singleton

theorem recorded_concat_issue (uses : List Use) : recorded (uses ++ [.issue]) = recorded uses := by
  rw [recorded_append]
  exact List.append_nil _

theorem issues_cons_record (c : Change) (uses : List Use) :
    issues (.record c :: uses) = issues uses := by
  have hne : Use.record c ≠ .issue := nofun
  exact List.count_cons_of_ne hne

theorem issues_append (front back : List Use) : issues (front ++ back) = issues front + issues back :=
  List.count_append

theorem issues_concat_record (uses : List Use) (c : Change) :
    issues (uses ++ [.record c]) = issues uses := issues_append uses [.record c]

theorem issues_concat_issue (uses : List Use) : issues (uses ++ [.issue]) = issues uses + 1 :=
  issues_append uses [.issue]

/-- Serving two lists of uses is serving the first and then the second, with the messages of both. -/
theorem serve_append (b : Piggyback) (front back : List Use) :
    b.serve (front ++ back) =
      (((b.serve front).1.serve back).1, (b.serve front).2 ++ ((b.serve front).1.serve back).2) := by
  induction front generalizing b with
  | nil => rfl
  | cons use rest ih =>
      cases use with
      | record c => exact ih (b.record c)
      | issue =>
          rw [List.cons_append, serve, serve]
          dsimp only
          rw [ih b.issue.1]
          rfl

theorem limit_serve (b : Piggyback) (uses : List Use) : (b.serve uses).1.limit = b.limit := by
  induction uses generalizing b with
  | nil => rfl
  | cons use rest ih =>
      cases use with
      | record c => exact ih (b.record c)
      | issue => exact ih b.issue.1

/-- A claim is among the latest only if it was recorded. -/
theorem mem_recorded_of_mem_latest (h : p ∈ latest uses) : p.change.address ∈ recorded uses := by
  induction uses with
  | nil => exact absurd h List.not_mem_nil
  | cons use rest ih =>
      cases use with
      | record c =>
          show _ ∈ c.address :: recorded rest
          rw [latest] at h
          split at h
          · exact List.mem_cons_of_mem _ (ih h)
          · rcases List.mem_cons.mp h with rfl | hrest
            · exact List.mem_cons_self
            · exact List.mem_cons_of_mem _ (ih hrest)
      | issue => exact ih h

/-- A recording replaces what there is about its member, and comes last. -/
theorem latest_concat_record (uses : List Use) (c : Change) :
    latest (uses ++ [.record c]) =
      (latest uses).filter (fun p => p.change.address ≠ c.address) ++ [⟨c, 0⟩] := by
  induction uses with
  | nil => rfl
  | cons use rest ih =>
      cases use with
      | record d =>
          rw [List.cons_append, latest, latest, ih, issues_concat_record]
          by_cases hrest : d.address ∈ recorded rest
          · rw [if_pos (mem_recorded_concat.mpr (Or.inl hrest)), if_pos hrest]
          · rw [if_neg hrest]
            by_cases hsame : d.address = c.address
            · rw [if_pos (mem_recorded_concat.mpr (Or.inr hsame)),
                List.filter_cons_of_neg (by simpa using hsame)]
            · rw [if_neg (mt mem_recorded_concat.mp (not_or.mpr ⟨hrest, hsame⟩)),
                List.filter_cons_of_pos (by simpa using hsame), List.cons_append]
      | issue => exact ih

/-- An issue is counted for all of them. -/
theorem latest_concat_issue (uses : List Use) :
    latest (uses ++ [.issue]) = (latest uses).map (Pending.later 1) := by
  induction uses with
  | nil => rfl
  | cons use rest ih =>
      cases use with
      | record c =>
          rw [List.cons_append, latest, latest, ih, recorded_concat_issue, issues_concat_issue]
          split <;> rfl
      | issue => exact ih

theorem standing_nil (b : Piggyback) : b.standing [] = b.pending := by
  have hsame : Pending.later (issues []) = id := rfl
  rw [standing, hsame, List.map_id, latest, List.append_nil]
  exact List.filter_eq_self.mpr fun p _ => decide_eq_true List.not_mem_nil

/-- A recording takes the address out of its old place and puts it last, with no issue counted. -/
theorem standing_concat_record (b : Piggyback) (uses : List Use) (c : Change) :
    b.standing (uses ++ [.record c]) =
      (b.standing uses).filter (fun p => p.change.address ≠ c.address) ++ [⟨c, 0⟩] := by
  rw [standing, standing, latest_concat_record, issues_concat_record, List.filter_append, List.filter_map,
    List.filter_filter, List.append_assoc]
  congr 2
  refine List.filter_congr fun p _ => ?_
  rw [Bool.eq_iff_iff, Bool.and_eq_true, decide_eq_true_iff, mem_recorded_concat, not_or]
  exact and_comm.trans (and_congr decide_eq_true_iff.symm decide_eq_true_iff.symm)

/-- An issue counts once for everything that stands. -/
theorem standing_concat_issue (b : Piggyback) (uses : List Use) :
    b.standing (uses ++ [.issue]) = (b.standing uses).map (Pending.later 1) := by
  rw [standing, standing, latest_concat_issue, recorded_concat_issue, issues_concat_issue,
    List.map_append, List.map_map]
  rfl

/-! ## What waits and what is handed out -/

/-- **What waits** has gone out so often that the next issue drops it, or less. Before the first issue
    nothing has been dropped. -/
theorem pending_serve (b : Piggyback) (uses : List Use) :
    (b.serve uses).1.pending = (b.standing uses).filter fun p =>
      issues uses = 0 ∨ p.issued ≤ b.limit.toNat + 1 := by
  induction uses using List.reverseRecOn with
  | nil =>
      rw [standing_nil]
      exact (List.filter_eq_self.mpr fun p _ => decide_eq_true (Or.inl rfl)).symm
  -- the induction is on the uses from the back, as a use looks only at what the ones before have left
  | append_singleton uses use ih =>
      rw [serve_append]
      cases use with
      | record c =>
          have hnew : [(⟨c, 0⟩ : Pending)].filter
              (fun p => issues uses = 0 ∨ p.issued ≤ b.limit.toNat + 1) = [⟨c, 0⟩] :=
            List.filter_cons_of_pos (decide_eq_true (Or.inr (Nat.zero_le _)))
          show (b.serve uses).1.pending.filter (fun p => p.change.address ≠ c.address) ++ [⟨c, 0⟩] = _
          rw [ih, standing_concat_record, issues_concat_record, List.filter_append, hnew,
            List.filter_filter, List.filter_filter]
          congr 1
          exact List.filter_congr fun p _ => Bool.and_comm _ _
      | issue =>
          show ((b.serve uses).1.pending.filter (b.serve uses).1.isLive).map (Pending.later 1) = _
          rw [ih, standing_concat_issue, issues_concat_issue, List.filter_map, List.filter_filter]
          congr 1
          refine List.filter_congr fun p _ => ?_
          simp only [isLive, limit_serve, Pending.later, Function.comp_apply, Nat.succ_ne_zero, false_or,
            Nat.add_le_add_iff_right, ← Bool.decide_and, decide_eq_decide]
          omega

/-- **What an issue hands out** has gone out no more often than the limit says. -/
theorem issue_serve (b : Piggyback) (uses : List Use) :
    (b.serve uses).1.issue.2 =
      ((b.standing uses).filter fun p => p.issued ≤ b.limit.toNat).map Pending.change := by
  show ((b.serve uses).1.pending.filter (b.serve uses).1.isLive).map Pending.change = _
  rw [pending_serve, List.filter_filter]
  congr 1
  refine List.filter_congr fun p _ => ?_
  simp only [isLive, limit_serve, ← Bool.decide_and, decide_eq_decide]
  omega

/-- Of each member at most one claim stands, if there was at most one before. -/
theorem nodup_standing (hsingle : (b.pending.map fun p => p.change.address).Nodup) (uses : List Use) :
    ((b.standing uses).map fun p => p.change.address).Nodup := by
  induction uses using List.reverseRecOn with
  | nil =>
      rw [standing_nil]
      exact hsingle
  | append_singleton uses use ih =>
      cases use with
      | record c =>
          rw [standing_concat_record]
          exact nodup_map_replaced ih ⟨c, 0⟩
      | issue =>
          rw [standing_concat_issue, List.map_map]
          exact ih

/-- About the member of a claim that was recorded, and not replaced, nothing else stands. -/
theorem mem_standing_record_iff (hkept : c.address ∉ recorded uses) :
    p ∈ (b.record c).standing uses ∧ p.change.address = c.address ↔ p = ⟨c, issues uses⟩ := by
  have hmine : Pending.later (issues uses) ⟨c, 0⟩ = ⟨c, issues uses⟩ :=
    congrArg (Pending.mk c) (Nat.zero_add _)
  constructor
  · rintro ⟨hp, habout⟩
    rcases List.mem_append.mp hp with hold | hlatest
    · obtain ⟨q, hq, rfl⟩ := List.mem_map.mp hold
      rcases List.mem_append.mp (List.mem_filter.mp hq).1 with hbefore | hnew
      · exact absurd habout (of_decide_eq_true (List.mem_filter.mp hbefore).2)
      · rw [List.mem_singleton.mp hnew, hmine]
    · exact absurd (habout ▸ mem_recorded_of_mem_latest hlatest) hkept
  · rintro rfl
    refine ⟨List.mem_append_left _ (List.mem_map.mpr ⟨⟨c, 0⟩, List.mem_filter.mpr ⟨?_, ?_⟩, hmine⟩), rfl⟩
    · exact List.mem_append_right _ (List.mem_singleton_self _)
    · exact decide_eq_true hkept

/-- **A claim that is recorded and not replaced** waits until it has gone out once more often than the
    limit says, and the next issue drops it. -/
theorem mem_pending_record_iff (hkept : c.address ∉ recorded uses) :
    p ∈ ((b.record c).serve uses).1.pending ∧ p.change.address = c.address ↔
      p = ⟨c, issues uses⟩ ∧ issues uses ≤ b.limit.toNat + 1 := by
  rw [pending_serve, List.mem_filter, and_right_comm, mem_standing_record_iff hkept]
  refine and_congr_right ?_
  rintro rfl
  show decide (issues uses = 0 ∨ issues uses ≤ b.limit.toNat + 1) = true ↔ _
  rw [decide_eq_true_iff]
  omega

/-- The next issue hands it out if it has gone out no more often than the limit says, and nothing else
    about its member. -/
theorem mem_issue_record_iff (hkept : c.address ∉ recorded uses) :
    d ∈ ((b.record c).serve uses).1.issue.2 ∧ d.address = c.address ↔
      d = c ∧ issues uses ≤ b.limit.toNat := by
  rw [issue_serve, List.mem_map]
  constructor
  · rintro ⟨⟨p, hp, rfl⟩, habout⟩
    obtain ⟨hstanding, hlive⟩ := List.mem_filter.mp hp
    obtain rfl := (mem_standing_record_iff hkept).mp ⟨hstanding, habout⟩
    exact ⟨rfl, of_decide_eq_true hlive⟩
  · rintro ⟨rfl, hlive⟩
    have hstanding := ((mem_standing_record_iff (b := b) hkept).mpr rfl).1
    exact ⟨⟨_, List.mem_filter.mpr ⟨hstanding, decide_eq_true hlive⟩, rfl⟩, rfl⟩

/-- Each issue hands out what it finds after the uses before it. -/
theorem getElem?_serve {changes : List Change} (h : (b.serve uses).2[i]? = some changes) :
    ∃ front back, uses = front ++ .issue :: back ∧ issues front = i ∧
      (b.serve front).1.issue.2 = changes := by
  induction uses generalizing b i with
  | nil => cases h
  | cons use rest ih =>
      cases use with
      | record c =>
          obtain ⟨front, back, rfl, rfl, hchanges⟩ := ih h
          exact ⟨.record c :: front, back, rfl, issues_cons_record c front, hchanges⟩
      | issue =>
          cases i with
          | zero => exact ⟨[], rest, rfl, rfl, Option.some.inj h⟩
          | succ i =>
              obtain ⟨front, back, rfl, rfl, hchanges⟩ := ih (b := b.issue.1) h
              exact ⟨.issue :: front, back, rfl, List.count_cons_self, hchanges⟩

/-- There is one message for each issue. -/
theorem length_serve (b : Piggyback) (uses : List Use) : (b.serve uses).2.length = issues uses := by
  induction uses generalizing b with
  | nil => rfl
  | cons use rest ih =>
      cases use with
      | record c => exact (ih (b.record c)).trans (issues_cons_record c rest).symm
      | issue => exact (congrArg (· + 1) (ih b.issue.1)).trans List.count_cons_self.symm

/-- **A claim that is recorded is handed out by the first issues after that, one more than the limit
    says.**

    Take any buffer in which at most one claim about each member waits, and any uses of it. An issue
    hands out at most one claim about each member, the one recorded last, in the order in which they
    were recorded last, those that have gone out no more often than the limit says. Recording a claim
    puts it in the last place with a count of zero, instead of any other about its member.

    From then on, as long as nothing else is recorded about the member, this claim is handed out by the
    first issues, one more than the limit says, and by no other; and nothing else is handed out about
    the member. It waits, with the number of issues as its count, until that many have gone by, and the
    next one drops it. So no count goes beyond the limit by more than one. -/
theorem handed_out_first (b : Piggyback) (hsingle : (b.pending.map fun p => p.change.address).Nodup)
    (uses : List Use) :
    let b' := (b.serve uses).1
    b'.issue.2 =
        ((b.standing uses).filter fun p => p.issued ≤ b.limit.toNat).map Pending.change ∧
      (b'.issue.2.map Change.address).Nodup ∧
      (∀ c, (b'.record c).pending =
        b'.pending.filter (fun p => p.change.address ≠ c.address) ++ [⟨c, 0⟩]) ∧
      ∀ c after, c.address ∉ recorded after →
        let served := (b'.record c).serve after
        served.2.length = issues after ∧
          (∀ i changes, served.2[i]? = some changes →
            ∀ d, d ∈ changes ∧ d.address = c.address ↔ d = c ∧ i ≤ b.limit.toNat) ∧
          (∀ p, p ∈ served.1.pending ∧ p.change.address = c.address ↔
            p = ⟨c, issues after⟩ ∧ issues after ≤ b.limit.toNat + 1) := by
  intro b'
  have hlimit : b'.limit = b.limit := limit_serve b uses
  refine ⟨issue_serve b uses, ?_, fun _ => rfl, ?_⟩
  · rw [issue_serve, List.map_map]
    exact (nodup_standing hsingle uses).sublist (List.filter_sublist.map _)
  · intro c after hkept served
    refine ⟨length_serve _ after, ?_, fun p => hlimit ▸ mem_pending_record_iff hkept⟩
    intro i changes hchanges d
    obtain ⟨front, back, rfl, rfl, rfl⟩ := getElem?_serve hchanges
    rw [recorded_append, List.mem_append, not_or] at hkept
    exact hlimit ▸ mem_issue_record_iff hkept.1

/-- With a limit of one, the claim that `b` is back replaces the one that `b` is suspect. It is handed
    out by the next two issues, and the third one drops it, though a claim about `d` that was recorded in
    between still goes out. -/
theorem handed_out_first_after_replacement :
    let back : Change := ⟨"b", .alive, 4, "b", 4, 7⟩
    let other : Change := ⟨"d", .alive, 1, "d", 1, 8⟩
    let b : Piggyback :=
      ⟨1, [⟨⟨"b", .suspect, 3, "a", 1, 6⟩, 1⟩, ⟨⟨"c", .alive, 2, "c", 2, 5⟩, 0⟩]⟩
    let after : List Use := [.issue, .record other, .issue, .issue]
    (b.pending.map fun p => p.change.address).Nodup ∧ back.address ∉ recorded after ∧
      (∃ changes, ((b.record back).serve after).2[1]? = some changes ∧ back ∈ changes) ∧
      ((b.record back).serve after).2[2]? = some [other] ∧ back ∉ [other] := by
  intro back other b after
  have hsingle : (b.pending.map fun p => p.change.address).Nodup := by decide +kernel
  have hkept : back.address ∉ recorded after := by decide +kernel
  obtain ⟨-, hhanded, -⟩ := (handed_out_first b hsingle []).2.2.2 back after hkept
  have hsecond : ((b.record back).serve after).2[1]? =
      some [⟨"c", .alive, 2, "c", 2, 5⟩, back, other] := by decide +kernel
  have hthird : ((b.record back).serve after).2[2]? = some [other] := by decide +kernel
  refine ⟨hsingle, hkept, ⟨_, hsecond, ((hhanded 1 _ hsecond back).mpr ⟨rfl, by decide⟩).1⟩, hthird, ?_⟩
  intro hmem
  exact absurd ((hhanded 2 _ hthird back).mp ⟨hmem, rfl⟩).2 (by decide)

end

end Piggyback

end GossipRing
