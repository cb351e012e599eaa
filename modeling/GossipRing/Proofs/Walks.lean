import GossipRing.Proofs.RingPositions
import Mathlib.Data.Finset.Card

/-!
# Walking once around the ring

Toward: which servers a look-up of several answers with, and in which order, after any history and
whatever the hash.

A look-up walks with a cursor. It takes the entry under the cursor, starts again at the smallest
position behind the largest one, and is over once it has found enough servers or stands again where
it came in. The servers that own no position are the reason for the second exit: where points meet,
fewer servers are found than are declared.

* **`Walker.turn`**, **`Ends`** — one turn of the walk, and the walks that come to an end.
* **`walked_iff`** — every walk ends, with the servers of `lookupMany`.
* **`preferences`** — the owners of all positions clockwise from a key, each where it comes first.
* **`lookupMany_eq_take`** — a look-up of `n` servers answers with the first `n` of them.
-/

namespace GossipRing.Ring

open RedBlack

/-! ## Clockwise from a position -/

/-- The entries once around the ring: those above a position, then the others from the smallest. -/
def clockwise (r : Ring) (position : UInt32) : List (UInt32 × String) :=
  (r.positions.toList.filter fun e => position < e.1) ++
    r.positions.toList.filter fun e => e.1 ≤ position

/-- The owners of all positions clockwise from a key, each named once, where it comes first. -/
def preferences (r : Ring) (key : String) : List String :=
  ((r.clockwise (r.hash key)).map Prod.snd).eraseDups

/-- Ascending entries fall into those up to a position and those above it. -/
theorem span_le {xs : List (UInt32 × String)} (h : Ascending xs) (p : UInt32) :
    (xs.takeWhile fun e => e.1 ≤ p) = (xs.filter fun e => e.1 ≤ p) ∧
      (xs.dropWhile fun e => e.1 ≤ p) = xs.filter fun e => p < e.1 := by
  induction xs with
  | nil => exact ⟨rfl, rfl⟩
  | cons e rest ih =>
      obtain ⟨hfirst, hrest⟩ := List.pairwise_cons.mp h
      rw [List.takeWhile_cons, List.dropWhile_cons, List.filter_cons, List.filter_cons]
      by_cases hle : e.1 ≤ p
      · simp only [hle, UInt32.not_lt.mpr hle, decide_true, decide_false, Bool.false_eq_true,
          if_true, if_false]
        exact ⟨congrArg (e :: ·) (ih hrest).1, (ih hrest).2⟩
      · -- the entries behind the first one are larger still
        have hlt : ∀ e' ∈ rest, p < e'.1 := fun e' he' =>
          UInt32.lt_trans (UInt32.not_le.mp hle) (hfirst e' he')
        simp only [hle, UInt32.not_le.mp hle, decide_true, decide_false, Bool.false_eq_true,
          if_true, if_false]
        constructor
        · refine (List.filter_eq_nil_iff.mpr fun e' he' hle' => ?_).symm
          exact UInt32.not_le.mpr (hlt e' he') (of_decide_eq_true hle')
        · exact congrArg (e :: ·)
            (List.filter_eq_self.mpr fun e' he' => decide_eq_true (hlt e' he')).symm

theorem eq_filter_append_filter {xs : List (UInt32 × String)} (h : Ascending xs) (p : UInt32) :
    xs = (xs.filter fun e => e.1 ≤ p) ++ xs.filter fun e => p < e.1 := by
  rw [← (span_le h p).1, ← (span_le h p).2, List.takeWhile_append_dropWhile]

/-- The owners around the ring are those of the entries clockwise from the key. -/
theorem owners_eq {r : Ring} (h : Sound r) (key : String) :
    r.owners key = (r.clockwise (r.hash key)).map Prod.snd := by
  rw [owners, clockwise, Tree.toList_upperBound h.ordered, Tree.toList_start,
    (span_le h.ordered (r.hash key)).1]

/-- Clockwise from a position each entry comes once. -/
theorem clockwise_perm (r : Ring) (p : UInt32) : (r.clockwise p).Perm r.positions.toList := by
  have hle : (fun e : UInt32 × String => decide (e.1 ≤ p)) =
      fun e => !decide (p < e.1) := by
    funext e
    rw [← decide_not]
    exact decide_eq_decide.mpr UInt32.not_lt.symm
  rw [clockwise, hle]
  exact List.filter_append_perm _ _

/-- The preferred servers are those that own a position. -/
theorem mem_preferences {r : Ring} {key s : String} :
    s ∈ r.preferences key ↔ ∃ p, (p, s) ∈ r.positions.toList := by
  rw [preferences, List.mem_eraseDups, List.mem_map]
  constructor
  · rintro ⟨⟨p, s⟩, he, rfl⟩
    exact ⟨p, (r.clockwise_perm _).mem_iff.mp he⟩
  · rintro ⟨p, he⟩
    exact ⟨(p, s), (r.clockwise_perm _).mem_iff.mpr he, rfl⟩

/-! ## The first different names -/

theorem nodup_eraseDups (names : List String) : names.eraseDups.Nodup := by
  induction hn : names.length using Nat.strong_induction_on generalizing names with
  | _ n ih =>
      cases names with
      | nil => exact List.nodup_nil
      | cons name rest =>
          rw [List.eraseDups_cons, List.nodup_cons]
          refine ⟨fun hmem => ?_, ih _ ?_ _ rfl⟩
          · simpa using List.mem_filter.mp (List.mem_eraseDups.mp hmem)
          · rw [← hn, List.length_cons]
            exact Nat.lt_succ_of_le (List.length_filter_le _ rest)

/-- The first different names are the first ones once repetitions and the seen names are left
    out. -/
theorem firstDistinct_eq (n : Nat) (seen names : List String) :
    firstDistinct n seen names =
      ((names.filter fun name => !seen.contains name).eraseDups).take n := by
  induction names generalizing n seen with
  | nil => cases n <;> rfl
  | cons name rest ih =>
      cases n with
      | zero => rfl
      | succ n =>
          rw [firstDistinct]
          by_cases hseen : seen.contains name = true
          · rw [if_pos hseen, List.filter_cons_of_neg (by simpa using hseen), ih]
          · rw [if_neg hseen, List.filter_cons_of_pos (by simpa using hseen), ih,
              List.eraseDups_cons, List.take_succ_cons, List.filter_filter]
            -- leaving out the name and what was seen is leaving out all that is seen now
            congr 4
            funext other
            rw [List.contains_cons, Bool.not_or]

/-- What a walk has in the end that has found some servers and meets these owners from here on. -/
def gather (n : Nat) (found names : List String) : List String :=
  found ++ firstDistinct (n - found.length) found names

theorem gather_nil (n : Nat) (found : List String) : gather n found [] = found := by
  rw [gather, firstDistinct_eq]
  simp

/-- A walk that has found enough looks no further. -/
theorem gather_full {n : Nat} {found : List String} (h : n ≤ found.length) (names : List String) :
    gather n found names = found := by
  rw [gather, firstDistinct_eq, Nat.sub_eq_zero_of_le h, List.take_zero, List.append_nil]

theorem gather_cons {n : Nat} {found : List String} (h : found.length < n) (name : String)
    (names : List String) : gather n found (name :: names) =
      gather n (if found.contains name then found else found ++ [name]) names := by
  by_cases hseen : found.contains name = true
  · rw [if_pos hseen, gather, gather, firstDistinct_eq, firstDistinct_eq,
      List.filter_cons_of_neg (by simpa using hseen)]
  · rw [if_neg hseen]
    obtain ⟨k, hk⟩ : ∃ k, n - found.length = k + 1 := ⟨n - found.length - 1, by omega⟩
    have hk' : n - (found ++ [name]).length = k := by
      rw [List.length_append, List.length_singleton]
      omega
    rw [gather, gather, hk, hk', firstDistinct, if_neg hseen, firstDistinct_eq, firstDistinct_eq,
      List.append_assoc, List.singleton_append]
    -- the order in which names were seen does not matter
    congr 5
    funext other
    simp [Bool.and_comm]

/-! ## The walk -/

/-- A walk under way: where it stands, and the servers it found so far. -/
structure Walker where
  cursor : Cursor String
  found : List String

variable {t : RedBlack.Tree String} {n : Nat} {start : UInt32}

/-- One turn of a walk that came in at `start` and looks for `n` servers, and whether it is over.
    The entry under the cursor is taken, and behind the last one the walk goes on at the first. -/
def Walker.turn (t : RedBlack.Tree String) (n : Nat) (start : UInt32) (w : Walker) : Walker × Bool :=
  match w.cursor.next with
  | (some (_, server), cursor) =>
    if w.found.contains server then ({ w with cursor }, cursor.key? == some start)
    else
      let found := w.found ++ [server]
      (⟨cursor, found⟩, found.length == n || cursor.key? == some start)
  | (none, _) => ({ w with cursor := t.start }, t.start.key? == some start)

/-- A walk ends, and has found these servers then. -/
inductive Ends (t : RedBlack.Tree String) (n : Nat) (start : UInt32) : Walker → List String → Prop where
  | ended {w w'} (h : w.turn t n start = (w', true)) : Ends t n start w w'.found
  | onward {w w' result} (h : w.turn t n start = (w', false)) (hrest : Ends t n start w' result) :
      Ends t n start w result

/-- Where a look-up comes in: above the key, or at the smallest position. -/
def entrance (r : Ring) (key : String) : Cursor String :=
  let cursor := r.positions.upperBound (r.hash key)
  if cursor.key?.isNone then r.positions.start else cursor

/-- The look-up of several servers comes to this result, walking entry by entry. -/
inductive Walked (r : Ring) (key : String) (n : Nat) : List String → Prop where
  /-- Nobody is asked for or declared. -/
  | nobody (hn : min n r.servers.length = 0) : Walked r key n []
  /-- Nobody owns a position. -/
  | deserted (hn : min n r.servers.length ≠ 0) (hnone : (r.entrance key).key? = none) :
      Walked r key n []
  | around {start result} (hn : min n r.servers.length ≠ 0)
      (hstart : (r.entrance key).key? = some start)
      (hends : Ends r.positions (min n r.servers.length) start ⟨r.entrance key, []⟩ result) :
      Walked r key n result

theorem key?_eq_head? (c : Cursor String) : c.key? = c.toList.head?.map Prod.fst := by
  cases c <;> rfl

/-- A turn on an entry: it is over when the walk has found enough or comes to where it started. -/
theorem Walker.turn_cons (t : RedBlack.Tree String) (start : UInt32) {w : Walker} {e : UInt32 × String}
    {rest : List (UInt32 × String)} (hahead : w.cursor.toList = e :: rest)
    (hroom : w.found.length < n) :
    ∃ w' ended, w.turn t n start = (w', ended) ∧ w'.cursor.toList = rest ∧
      w'.found = (if w.found.contains e.2 then w.found else w.found ++ [e.2]) ∧
      w'.found.length ≤ n ∧
      (ended = true ↔ w'.found.length = n ∨ rest.head?.map Prod.fst = some start) := by
  have hfirst : w.cursor.next.1 = some e := by rw [Cursor.next_fst, hahead, List.head?_cons]
  have hrest : w.cursor.next.2.toList = rest := by rw [Cursor.toList_next, hahead, List.tail_cons]
  have hnext : w.cursor.next = (some (e.1, e.2), w.cursor.next.2) := Prod.ext hfirst rfl
  have hkey : w.cursor.next.2.key? = rest.head?.map Prod.fst := by rw [key?_eq_head?, hrest]
  rw [Walker.turn, hnext]
  by_cases hseen : w.found.contains e.2 = true
  · simp only [if_pos hseen, hkey]
    refine ⟨_, _, rfl, hrest, rfl, Nat.le_of_lt hroom, ?_⟩
    rw [beq_iff_eq]
    exact ⟨Or.inr, fun h => h.resolve_left (Nat.ne_of_lt hroom)⟩
  · simp only [if_neg hseen, hkey]
    refine ⟨_, _, rfl, hrest, rfl, ?_, ?_⟩
    · rw [List.length_append, List.length_singleton]
      exact hroom
    · rw [Bool.or_eq_true, beq_iff_eq, beq_iff_eq]

/-- A turn behind the last entry starts again at the first one. -/
theorem Walker.turn_nil (t : RedBlack.Tree String) (n : Nat) (start : UInt32) {w : Walker}
    (hahead : w.cursor.toList = []) :
    w.turn t n start =
      ({ w with cursor := t.start }, t.toList.head?.map Prod.fst == some start) := by
  have hnone : w.cursor.next.1 = none := by rw [Cursor.next_fst, hahead, List.head?_nil]
  have hnext : w.cursor.next = (none, w.cursor.next.2) := Prod.ext hnone rfl
  rw [Walker.turn, hnext, key?_eq_head?, Tree.toList_start]

namespace Ends

/-- One turn of a walk that has entries ahead: the rest of it may assume that the walk stands
    elsewhere than where it started and still looks for servers. -/
theorem turn_cons {w : Walker} {e : UInt32 × String} {rest ahead : List (UInt32 × String)}
    (hahead : w.cursor.toList = e :: rest) (hroom : w.found.length < n)
    (hlast : rest.head?.map Prod.fst = some start → ahead = [])
    (honward : ∀ w' : Walker, w'.cursor.toList = rest → w'.found.length < n →
      rest.head?.map Prod.fst ≠ some start →
      Ends t n start w' (gather n w'.found (ahead.map Prod.snd))) :
    Ends t n start w (gather n w.found ((e :: ahead).map Prod.snd)) := by
  obtain ⟨w', ended, hturn, hrest, hfound, hle, hover⟩ := Walker.turn_cons t start hahead hroom
  rw [List.map_cons, gather_cons hroom, ← hfound]
  cases ended with
  | true =>
      -- nothing is added any more: enough was found, or nothing is ahead
      have hdone : gather n w'.found (ahead.map Prod.snd) = w'.found := by
        rcases hover.mp rfl with hfull | hback
        · exact gather_full (Nat.le_of_eq hfull.symm) _
        · rw [hlast hback, List.map_nil, gather_nil]
      rw [hdone]
      exact .ended hturn
  | false =>
      obtain ⟨hlt, hback⟩ := not_or.mp fun h => Bool.noConfusion (hover.mpr h)
      exact .onward hturn (honward w' hrest (Nat.lt_of_le_of_ne hle hlt) hback)

/-- The last stretch, from the smallest position to where the walk started. -/
theorem stretch {before rest : List (UInt32 × String)} (hne : before ≠ [])
    (hbefore : ∀ e ∈ before, e.1 ≠ start) (hstart : rest.head?.map Prod.fst = some start)
    {w : Walker} (hahead : w.cursor.toList = before ++ rest) (hroom : w.found.length < n) :
    Ends t n start w (gather n w.found (before.map Prod.snd)) := by
  induction before generalizing w with
  | nil => exact absurd rfl hne
  | cons e before ih =>
      refine turn_cons hahead hroom ?_ fun w' hahead' hroom' hback => ?_
      · -- the walk is back where it started only behind the whole stretch
        cases before with
        | nil => exact fun _ => rfl
        | cons e' before =>
            intro hback
            exact absurd (Option.some.inj hback) (hbefore e' (by simp))
      · cases before with
        | nil => exact absurd hstart hback
        | cons e' before =>
            exact ih (List.cons_ne_nil e' before)
              (fun e'' he'' => hbefore e'' (List.mem_cons_of_mem e he'')) hahead' hroom'

/-- A whole walk: up to the largest position, then from the smallest one to where it started. -/
theorem around {before rest ahead : List (UInt32 × String)} (ht : t.toList = before ++ rest)
    (hbefore : ∀ e ∈ before, e.1 ≠ start) (hstart : rest.head?.map Prod.fst = some start)
    {w : Walker} (hahead : w.cursor.toList = ahead) (hother : ∀ e ∈ ahead.tail, e.1 ≠ start)
    (hroom : w.found.length < n) :
    Ends t n start w (gather n w.found ((ahead ++ before).map Prod.snd)) := by
  induction ahead generalizing w with
  | nil =>
      have hturn := Walker.turn_nil t n start hahead
      rw [List.nil_append]
      -- at the end of the tree the walk goes on from its first entry, which may be where it has begun
      cases before with
      | nil =>
          rw [List.nil_append] at ht
          rw [ht, hstart, beq_self_eq_true] at hturn
          have hends := Ends.ended hturn
          rwa [← gather_nil n w.found] at hends
      | cons e before =>
          have hne : (t.toList.head?.map Prod.fst == some start) = false := by
            rw [ht]
            exact beq_eq_false_iff_ne.mpr fun h => hbefore e (by simp) (Option.some.inj h)
          rw [hne] at hturn
          refine .onward hturn (stretch (List.cons_ne_nil e before) hbefore hstart ?_ hroom)
          rw [Tree.toList_start, ht]
  | cons e ahead ih =>
      refine turn_cons hahead hroom ?_ fun w' hahead' hroom' _ => ?_
      · cases ahead with
        | nil => exact fun h => nomatch h
        | cons e' ahead => exact fun h => absurd (Option.some.inj h) (hother e' (by simp))
      · exact ih hahead' (fun e' he' => hother e' (List.mem_of_mem_tail he')) hroom'

/-- A walk ends in one way. -/
theorem unique {w : Walker} {result result' : List String} (h : Ends t n start w result)
    (h' : Ends t n start w result') : result = result' := by
  induction h with
  | ended hturn =>
      cases h' with
      | ended hturn' => rw [hturn] at hturn'; cases hturn'; rfl
      | onward hturn' => rw [hturn] at hturn'; cases hturn'
  | onward hturn _ ih =>
      cases h' with
      | ended hturn' => rw [hturn] at hturn'; cases hturn'
      | onward hturn' hrest' => rw [hturn] at hturn'; cases hturn'; exact ih hrest'

end Ends

/-- A look-up comes to one result. -/
theorem Walked.unique {r : Ring} {key : String} {n : Nat} {result result' : List String}
    (h : Walked r key n result) (h' : Walked r key n result') : result = result' := by
  cases h with
  | nobody hn => cases h' with
    | nobody => rfl
    | deserted hn' => exact absurd hn hn'
    | around hn' => exact absurd hn hn'
  | deserted hn hnone => cases h' with
    | nobody hn' => exact absurd hn' hn
    | deserted => rfl
    | around _ hstart => exact absurd (hnone.symm.trans hstart) (Option.some_ne_none _).symm
  | around hn hstart hends => cases h' with
    | nobody hn' => exact absurd hn' hn
    | deserted _ hnone => exact absurd (hnone.symm.trans hstart) (Option.some_ne_none _).symm
    | around _ hstart' hends' =>
        cases Option.some.inj (hstart.symm.trans hstart')
        exact hends.unique hends'

/-- Where a look-up comes in, the ring falls into what stands before and what is ahead, and nothing is
    ahead only in an empty ring. -/
theorem exists_toList_entrance {r : Ring} (h : Sound r) (key : String) :
    ∃ before, r.positions.toList = before ++ (r.entrance key).toList ∧
      r.clockwise (r.hash key) = (r.entrance key).toList ++ before ∧
      ((r.entrance key).toList = [] → before = []) := by
  have hsplit := eq_filter_append_filter h.ordered (r.hash key)
  have habove := Tree.toList_upperBound h.ordered (r.hash key)
  rw [entrance, key?_eq_head?, habove, clockwise]
  cases hahead : r.positions.toList.filter fun e => r.hash key < e.1 with
  | nil =>
      -- nothing is above the key: the look-up comes in at the smallest position
      rw [hahead, List.append_nil] at hsplit
      refine ⟨[], ?_, ?_, fun _ => rfl⟩
      · exact (Tree.toList_start r.positions).symm
      · rw [List.nil_append, List.append_nil, ← hsplit]
        exact (Tree.toList_start r.positions).symm
  | cons e rest =>
      rw [hahead] at habove
      refine ⟨r.positions.toList.filter fun e => e.1 ≤ r.hash key, ?_, ?_, ?_⟩
      · rw [hahead] at hsplit
        exact hsplit.trans (congrArg _ habove.symm)
      · exact congrArg (· ++ _) habove.symm
      · intro hnil
        exact absurd (habove.symm.trans hnil) (List.cons_ne_nil e rest)

/-- A look-up answers with the first preferred servers, as many as are asked for and declared. -/
theorem lookupMany_eq_take {r : Ring} (h : Sound r) (key : String) (n : Nat) :
    r.lookupMany key n = (r.preferences key).take (min n r.servers.length) := by
  rw [lookupMany, firstDistinct_eq, owners_eq h, preferences, List.filter_eq_self.mpr]
  exact fun _ _ => rfl

/-- A walk that comes in above a key ends with what the look-up answers. -/
theorem walked {r : Ring} (h : Sound r) (key : String) (n : Nat) :
    Walked r key n (r.lookupMany key n) := by
  obtain ⟨before, hlist, hclockwise, hnone⟩ := exists_toList_entrance h key
  have howners := owners_eq h key
  rw [hclockwise] at howners
  rw [lookupMany, howners]
  by_cases hn : min n r.servers.length = 0
  · rw [hn, firstDistinct_eq, List.take_zero]
    exact .nobody hn
  · -- a walk without an entrance finds nobody; any other one goes once around
    cases hahead : (r.entrance key).toList with
    | nil =>
        rw [hnone hahead, List.append_nil, List.map_nil, firstDistinct_eq, List.filter_nil,
          List.eraseDups_nil, List.take_nil]
        exact .deserted hn (by rw [key?_eq_head?, hahead, List.head?_nil, Option.map_none])
    | cons e rest =>
        have hascending := h.ordered
        rw [Tree.Ordered, hlist, hahead] at hascending
        obtain ⟨-, hrest, hbefore⟩ := List.pairwise_append.mp hascending
        have hstart : (r.entrance key).key? = some e.1 := by
          rw [key?_eq_head?, hahead, List.head?_cons, Option.map_some]
        refine .around hn hstart (Ends.around (hlist.trans (by rw [hahead])) ?_ ?_ hahead ?_ ?_)
        · exact fun e' he' => UInt32.ne_of_lt (hbefore e' he' e List.mem_cons_self)
        · rfl
        · exact fun e' he' => (UInt32.ne_of_lt ((List.pairwise_cons.mp hrest).1 e' he')).symm
        · exact Nat.pos_of_ne_zero hn

/-- **The walk of a look-up ends, whatever the ring, and with the servers that the look-up answers
    with.** -/
theorem walked_iff {r : Ring} (h : Sound r) (key : String) (n : Nat) (result : List String) :
    Walked r key n result ↔ result = r.lookupMany key n := by
  constructor
  · exact fun hresult => hresult.unique (walked h key n)
  · rintro rfl
    exact walked h key n

/-! ## The look-up of several servers -/

/-- A ring declares as many servers as its history does. -/
theorem length_servers_run (replicas : Nat) (hash : HashFunction) (ops : List Op) :
    ((empty replicas hash).run ops).servers.length = (declared ops).card := by
  have hnodup : ((empty replicas hash).run ops).servers.Nodup :=
    ((Sound.empty replicas hash).run ops).ascending.imp ne_of_lt
  rw [← List.toFinset_card_of_nodup hnodup]
  congr 1
  ext s
  rw [List.mem_toFinset, mem_servers_run]

/-- The owner of a key is the first preferred server. -/
theorem head?_preferences {r : Ring} (h : Sound r) (key : String) :
    (r.preferences key).head? = r.lookup key := by
  have hhead : ∀ names : List String, names.eraseDups.head? = names.head? := by
    rintro ⟨⟩
    · rfl
    · rw [List.eraseDups_cons, List.head?_cons, List.head?_cons]
  have hsplit := eq_filter_append_filter h.ordered (r.hash key)
  rw [lookup_eq h, preferences, hhead, clockwise, List.head?_map, List.head?_append]
  congr 1
  cases hahead : r.positions.toList.filter fun e => r.hash key < e.1 with
  | nil =>
      rw [hahead, List.append_nil] at hsplit
      rw [← hsplit]
  | cons e rest => rfl

/-- **A look-up of several servers walks once around the ring and names the owners it meets.**

    Take any hash, a constant one included, any number of points, any history, any key and any `n`.
    The walk ends, and with one result: the first preferred servers, that is the owners of all
    positions clockwise from the first one above the key, each where it comes first, and as many of
    them as are asked for and declared. So nobody is named twice, the owner of the key comes first,
    and who asks for fewer servers is told the first of them. -/
theorem lookupMany_once_around (replicas : Nat) (hash : HashFunction) (ops : List Op)
    (key : String) (n : Nat) :
    (∀ result, Walked ((empty replicas hash).run ops) key n result ↔
      result = ((empty replicas hash).run ops).lookupMany key n) ∧
    ((empty replicas hash).run ops).lookupMany key n =
      ((((empty replicas hash).run ops).clockwise (hash key)).map Prod.snd).eraseDups.take
        (min n (declared ops).card) ∧
    (((empty replicas hash).run ops).lookupMany key n).Nodup ∧
    (0 < n → (((empty replicas hash).run ops).lookupMany key n).head? =
      ((empty replicas hash).run ops).lookup key) ∧
    ∀ m ≤ n, ((empty replicas hash).run ops).lookupMany key m <+:
      ((empty replicas hash).run ops).lookupMany key n := by
  have hsound : Sound ((empty replicas hash).run ops) := (Sound.empty replicas hash).run ops
  have htake := lookupMany_eq_take hsound key
  refine ⟨walked_iff hsound key n, ?_, ?_, ?_, ?_⟩
  · rw [htake, preferences, length_servers_run, (points_run _ ops).1]
    rfl
  · rw [htake]
    exact (List.take_sublist _ _).nodup (nodup_eraseDups _)
  · intro hn
    rw [htake, List.head?_take, head?_preferences hsound]
    split
    · -- nobody is declared, so nobody owns a position
      next hnone =>
      have hempty : ((empty replicas hash).run ops).servers = [] :=
        List.length_eq_zero_iff.mp (by omega)
      exact ((hsound.deserted hempty).lookup key).symm
    · rfl
  · intro m hm
    rw [htake, htake]
    exact List.take_prefix_take_left (by omega)

/-- Where every point is the same, two servers are declared and one is met: the walk ends behind it. -/
theorem lookupMany_on_one_point :
    declared [.add "b", .add "a"] = {"a", "b"} ∧
    Walked ((empty 3 fun _ => 7).run [.add "b", .add "a"]) "key" 2 ["b"] ∧
    ((empty 3 fun _ => 7).run [.add "b", .add "a"]).lookup "key" = some "b" ∧
    ((empty 3 fun _ => 7).run [.add "b", .add "a"]).lookupMany "key" 1 <+:
      ((empty 3 fun _ => 7).run [.add "b", .add "a"]).lookupMany "key" 2 := by
  obtain ⟨hwalked, -, -, hfirst, hfewer⟩ :=
    lookupMany_once_around 3 (fun _ => 7) [.add "b", .add "a"] "key" 2
  have hmany : ((empty 3 fun _ => 7).run [.add "b", .add "a"]).lookupMany "key" 2 = ["b"] := by
    decide +kernel
  refine ⟨by decide, (hwalked ["b"]).mpr hmany.symm, ?_, hfewer 1 (by decide)⟩
  rw [← hfirst (by decide), hmany, List.head?_cons]

end GossipRing.Ring
