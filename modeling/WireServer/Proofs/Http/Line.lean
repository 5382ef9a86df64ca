import WireServer.Proofs.Http.Places

/-! The responses of a connection in their line, and what leaves it. Only what is told to a slot, a
new response at the end and interim responses in front of an empty line change it. Whatever of this
happens, the bytes that leave the line are those of the places in its log. -/

namespace WireServer.Http.Session

variable {π : Type}

/-- Slots in their order, all of them below the next one. -/
structure Rising (slots : List Nat) (next : Nat) : Prop where
  sorted : slots.Pairwise (· < ·)
  below : ∀ slot ∈ slots, slot < next

namespace Rising

variable {slots more : List Nat} {slot next : Nat}

theorem nil (next : Nat) : Rising [] next := ⟨.nil, by simp⟩

theorem concat (h : Rising slots next) (hnext : next ≤ slot) :
    Rising (slots ++ [slot]) (slot + 1) := by
  have hnew (other : Nat) (hother : other ∈ slots) : other < slot :=
    Nat.lt_of_lt_of_le (h.below other hother) hnext
  constructor
  · rw [List.pairwise_append]
    exact ⟨h.sorted, List.pairwise_singleton _ _,
      fun other hother _ hslot => List.mem_singleton.1 hslot ▸ hnew other hother⟩
  · simp only [List.mem_append, List.mem_singleton]
    rintro other (hother | rfl)
    · exact Nat.lt_succ_of_lt (hnew other hother)
    · exact Nat.lt_succ_self _

theorem of_append (h : Rising (slots ++ more) next) : Rising more next :=
  ⟨(List.pairwise_append.1 h.sorted).2.1, fun slot hslot =>
    h.below slot (List.mem_append_right _ hslot)⟩

theorem nodup (h : Rising slots next) : slots.Nodup := h.sorted.imp Nat.ne_of_lt

end Rising

/-- The responses in line, the output of those that left it, and the next slot. -/
structure Line (π : Type) where
  pending : List (Pending π)
  out : Net.Chain
  next : Nat

def line (s : Session π) : Line π := ⟨s.pending, s.out, s.nextSlot⟩

namespace Line

/-- The first response in a slot is told something. -/
def tellFirst (slot : Nat) (input : Pending.Input) : List (Pending π) → List (Pending π)
  | [] => []
  | p :: ps => if p.slot = slot then p.take input :: ps else p :: tellFirst slot input ps

def change (l : Line π) : Change π → Line π
  | .admitted p => { l with pending := l.pending ++ [p], next := p.slot + 1 }
  | .told slot input => { l with pending := tellFirst slot input l.pending }
  | .interim => { l with out := l.out.push continueLine }

/-- What may happen to a line: a new response gets a new slot, only one in line is told that it is
the last, and nothing is put between responses while one is in line. -/
def Allows (l : Line π) : Change π → Prop
  | .admitted p => l.next ≤ p.slot ∧ p.stage = .waiting ∧ p.out = {}
  | .told slot .last => slot ∈ l.pending.map Pending.slot
  | .told _ (.part _) => True
  | .interim => l.pending = []

/-- Changes that lead from one line to another. -/
inductive Follows : Line π → Log π → Line π → Prop
  | nil (l : Line π) : Follows l [] l
  | cons {l l' : Line π} {c : Change π} {log : Log π} (h : l.Allows c)
      (hrest : Follows (l.change c) log l') : Follows l (c :: log) l'

theorem Follows.single {l : Line π} {c : Change π} (h : l.Allows c) :
    Follows l [c] (l.change c) :=
  .cons h (.nil _)

theorem Follows.append {l l' l'' : Line π} {log more : Log π} (h : Follows l log l')
    (hmore : Follows l' more l'') : Follows l (log ++ more) l'' := by
  induction h with
  | nil l => exact hmore
  | cons hc _ ih => exact .cons hc (ih hmore)

/-- Later responses have later slots. -/
def Ordered (l : Line π) : Prop := Rising (l.pending.map Pending.slot) l.next

theorem tellFirst_eq_map {ps : List (Pending π)} (hslots : (ps.map Pending.slot).Nodup) (slot : Nat)
    (input : Pending.Input) :
    tellFirst slot input ps = ps.map fun p => if p.slot = slot then p.take input else p := by
  induction ps with
  | nil => rfl
  | cons p ps ih =>
    obtain ⟨hfresh, hslots⟩ := List.nodup_cons.1 hslots
    rw [tellFirst, List.map_cons]
    by_cases hp : p.slot = slot
    · have hothers : ps.map (fun q => if q.slot = slot then q.take input else q) = ps := by
        refine (List.map_congr_left fun q hq => if_neg fun heq => hfresh ?_).trans (List.map_id ps)
        exact List.mem_map.2 ⟨q, hq, heq.trans hp.symm⟩
      rw [if_pos hp, if_pos hp, hothers]
    · rw [if_neg hp, if_neg hp, ih hslots]

@[simp] theorem map_slot_tellFirst (slot : Nat) (input : Pending.Input) (ps : List (Pending π)) :
    (tellFirst slot input ps).map Pending.slot = ps.map Pending.slot := by
  induction ps with
  | nil => rfl
  | cons p ps ih =>
    rw [tellFirst]
    split <;> simp [ih]

theorem tellFirst_concat {ps : List (Pending π)} {p : Pending π}
    (hfresh : ∀ q ∈ ps, q.slot ≠ p.slot) (input : Pending.Input) :
    tellFirst p.slot input (ps ++ [p]) = ps ++ [p.take input] := by
  induction ps with
  | nil => simp [tellFirst]
  | cons q ps ih =>
    rw [List.forall_mem_cons] at hfresh
    rw [List.cons_append, tellFirst, if_neg hfresh.1, ih hfresh.2, List.cons_append]

/-- A line stays in order. -/
theorem Ordered.change {l : Line π} {c : Change π} (h : l.Ordered) (hc : l.Allows c) :
    (l.change c).Ordered := by
  cases c with
  | admitted p =>
    have hmap : (l.change (.admitted p)).pending.map Pending.slot =
        l.pending.map Pending.slot ++ [p.slot] := List.map_append
    rw [Ordered, hmap]
    exact Rising.concat h hc.1
  | told slot input =>
    have hmap : (l.change (.told slot input)).pending.map Pending.slot =
        l.pending.map Pending.slot := map_slot_tellFirst _ _ _
    rw [Ordered, hmap]
    exact h
  | interim => exact h

theorem Follows.ordered {l l' : Line π} {log : Log π} (h : Follows l log l') (hl : l.Ordered) :
    l'.Ordered := by
  induction h with
  | nil l => exact hl
  | cons hc _ ih => exact ih (hl.change hc)

theorem applyToFirst_eq (slot : Nat) (part : Part) (ps : List (Pending π)) :
    applyToFirst slot part ps = tellFirst slot (.part part) ps := by
  induction ps with
  | nil => rfl
  | cons p ps ih => rw [applyToFirst, tellFirst, ih, Pending.take]

/-! ### What leaves the line -/

/-- The first response in line with output that has gone out before its own. -/
def aheadFirst (c : Net.Chain) : List (Pending π) → List (Pending π)
  | [] => []
  | p :: ps => p.ahead c :: ps

@[simp] theorem map_slot_aheadFirst (c : Net.Chain) (ps : List (Pending π)) :
    (aheadFirst c ps).map Pending.slot = ps.map Pending.slot := by
  cases ps <;> rfl

theorem map_aheadFirst (c : Net.Chain) (slot : Nat) (input : Pending.Input)
    (ps : List (Pending π)) :
    (aheadFirst c ps).map (fun p => if p.slot = slot then p.take input else p) =
      aheadFirst c (ps.map fun p => if p.slot = slot then p.take input else p) := by
  cases ps with
  | nil => rfl
  | cons p ps =>
    simp only [aheadFirst, List.map_cons, Pending.ahead_slot, Pending.take_ahead,
      apply_ite (Pending.ahead c)]

/-- The slots of the log are in order, and its responses were new when they came. -/
structure Sound (l : Line π) (log : Log π) : Prop where
  rising : Rising log.slots l.next
  fresh : ∀ p, .admitted p ∈ log → p.stage = .waiting ∧ p.out = {}

/-- The places of the log are those that are done and those in line, of the first of which some
output is gone already. All that went out belongs to them. -/
structure Shows (l : Line π) (log : Log π) (sent : Bytes) (done : List (Place π))
    (begun : Net.Chain) : Prop where
  places : log.places = done ++ (aheadFirst begun l.pending).map .answer
  passed : ∀ b ∈ done, b.passes
  bytes : sent ++ l.out.toBytes = done.flatMap Place.bytes ++ begun.toBytes
  unbegun : l.pending = [] → begun = {}

/-- A final response went out, and the line is empty for good. -/
structure Ended (l : Line π) (log : Log π) (sent : Bytes) (done : List (Place π)) (p : Pending π) :
    Prop where
  empty : l.pending = []
  places : ∃ ps : List (Pending π), log.places = done ++ .answer p :: ps.map .answer
  passed : ∀ b ∈ done, b.passes
  final : p.isFinal
  bytes : sent ++ l.out.toBytes = done.flatMap Place.bytes ++ p.out.toBytes

section Steps

variable {l l' : Line π} {log more : Log π} {sent : Bytes} {done : List (Place π)}
  {begun : Net.Chain} {p : Pending π} {c : Change π}

theorem Sound.change (h : l.Sound log) (hc : l.Allows c) : (l.change c).Sound (log ++ [c]) := by
  have hslots : Log.slots (log ++ [c]) = log.slots ++ Log.slots [c] := Log.slots_append _ _
  cases c with
  | admitted p =>
    obtain ⟨hnext, hfresh⟩ := hc
    refine ⟨hslots ▸ h.rising.concat hnext, fun q hq => ?_⟩
    rcases List.mem_append.1 hq with hq | hq
    · exact h.fresh q hq
    · cases List.mem_singleton.1 hq
      exact hfresh
  | told slot input =>
    exact ⟨hslots ▸ (List.append_nil log.slots).symm ▸ h.rising, fun q hq =>
      h.fresh q (by simpa using hq)⟩
  | interim =>
    exact ⟨hslots ▸ (List.append_nil log.slots).symm ▸ h.rising, fun q hq =>
      h.fresh q (by simpa using hq)⟩

theorem Shows.slots (h : l.Shows log sent done begun) :
    log.slots = done.filterMap Place.slot? ++ l.pending.map Pending.slot := by
  rw [← Log.filterMap_places, h.places, List.filterMap_append, List.filterMap_map,
    ← map_slot_aheadFirst begun]
  exact congrArg (_ ++ ·) (congrFun List.filterMap_eq_map (aheadFirst begun l.pending))

theorem Shows.ordered (h : l.Shows log sent done begun) (hsound : l.Sound log) : l.Ordered := by
  have hrising := hsound.rising
  rw [h.slots] at hrising
  exact hrising.of_append

/-- Nothing that may happen to the line changes what is done. -/
theorem Shows.map_tell (h : l.Shows log sent done begun) (hsound : l.Sound log) {slot : Nat}
    {input : Pending.Input} (hc : l.Allows (.told slot input)) :
    done.map (Place.tell slot input) = done := by
  cases input with
  | part part => exact Place.map_tell_of_passes h.passed slot part
  | last =>
    -- it is said to a response in line, and those have later slots than all that is done
    have hsorted := hsound.rising.sorted
    rw [h.slots, List.pairwise_append] at hsorted
    refine (List.map_congr_left fun b hb => Place.tell_of_slot_ne (fun hslot => ?_) _).trans
      (List.map_id done)
    exact Nat.lt_irrefl _ (hsorted.2.2 slot (List.mem_filterMap.2 ⟨b, hb, hslot⟩) slot hc)

theorem Shows.change (h : l.Shows log sent done begun) (hsound : l.Sound log) (hc : l.Allows c) :
    ∃ done', (l.change c).Shows (log ++ [c]) sent done' begun := by
  cases c with
  | admitted p =>
    refine ⟨done, ⟨?_, h.passed, h.bytes, fun hnone => absurd hnone (by simp [Line.change])⟩⟩
    rw [Log.places_admitted, h.places, Line.change]
    -- the first in line now may be the new one, of which nothing can have gone out
    cases hpending : l.pending with
    | nil => simp [aheadFirst, h.unbegun hpending]
    | cons q ps => simp [aheadFirst]
  | told slot input =>
    have hmap := tellFirst_eq_map (h.ordered hsound).nodup slot input
    refine ⟨done, ⟨?_, h.passed, h.bytes, fun hnone => h.unbegun ?_⟩⟩
    · rw [Log.places_told, h.places, List.map_append, h.map_tell hsound hc, Line.change, hmap,
        ← map_aheadFirst, List.map_map, List.map_map]
      rfl
    · simpa [Line.change, hmap] using hnone
  | interim =>
    have hbegun := h.unbegun hc
    refine ⟨done ++ [.interim], ⟨?_, ?_, ?_, fun _ => hbegun⟩⟩
    · rw [Log.places_interim, h.places, Line.change, show l.pending = [] from hc]
      simp [aheadFirst]
    · simp only [List.mem_append, List.mem_singleton]
      rintro b (hb | rfl)
      · exact h.passed b hb
      · rfl
    · rw [Line.change, Net.Chain.toBytes_push, ← List.append_assoc, h.bytes, hbegun]
      simp [Place.bytes]

theorem Shows.follows (h : l.Shows log sent done begun) (hsound : l.Sound log)
    (hl : Follows l more l') :
    l'.Sound (log ++ more) ∧ ∃ done', l'.Shows (log ++ more) sent done' begun := by
  induction hl generalizing log done with
  | nil l => exact ⟨by simpa using hsound, done, by simpa using h⟩
  | cons hc _ ih =>
    obtain ⟨done', h'⟩ := h.change hsound hc
    simpa using ih h' (hsound.change hc)

/-- Behind a final response all parts come too late. -/
theorem Ended.tell (h : l.Ended log sent done p) (slot : Nat) (part : Part) :
    (l.change (.told slot (.part part))).Ended (log ++ [.told slot (.part part)]) sent done p := by
  obtain ⟨ps, hplaces⟩ := h.places
  have hcomplete := (Pending.isFinal_iff.1 h.final).1
  have hdone := Place.map_tell_of_passes h.passed slot part
  have hp : (Place.answer p).tell slot (.part part) = .answer p := by
    simp only [Place.tell, Pending.take, Pending.accept_of_complete hcomplete, ite_self]
  refine ⟨?_, ⟨ps.map fun q => if q.slot = slot then q.take (.part part) else q, ?_⟩, h.passed,
    h.final, h.bytes⟩
  · rw [Line.change, h.empty, tellFirst]
  · rw [Log.places_told, hplaces, List.map_append, hdone, List.map_cons, hp, List.map_map,
      List.map_map]
    rfl

theorem Ended.follows (h : l.Ended log sent done p) (hsound : l.Sound log)
    (hl : Follows l more l') (hmore : ∀ c ∈ more, ∃ slot part, c = .told slot (.part part)) :
    l'.Sound (log ++ more) ∧ l'.Ended (log ++ more) sent done p := by
  induction hl generalizing log with
  | nil l => exact ⟨by simpa using hsound, by simpa using h⟩
  | cons hc _ ih =>
    rw [List.forall_mem_cons] at hmore
    obtain ⟨⟨slot, part, rfl⟩, hmore⟩ := hmore
    simpa using ih (h.tell slot part) (hsound.change hc) hmore

/-- The first response in line is not all there, and what there is of it has gone out. -/
def AtRest (l : Line π) : Prop := ∀ p ∈ l.pending.head?, p.isComplete = false ∧ p.out = {}

/-- At rest, what went out is what is shown. -/
theorem Shows.shown (h : l.Shows log sent done begun) (hrest : l.AtRest) :
    sent ++ l.out.toBytes = (Place.shown log.places).flatMap Place.bytes := by
  rw [h.bytes, h.places, Place.shown_append h.passed, List.flatMap_append]
  congr 1
  cases hpending : l.pending with
  | nil => simp [aheadFirst, h.unbegun hpending, Place.shown]
  | cons p ps =>
    obtain ⟨hopen, hout⟩ := hrest p (by simp [hpending])
    simp [aheadFirst, Place.shown, Place.bytes, Place.passes, Pending.passes, hopen, hout]

theorem Ended.shown (h : l.Ended log sent done p) :
    sent ++ l.out.toBytes = (Place.shown log.places).flatMap Place.bytes := by
  obtain ⟨ps, hplaces⟩ := h.places
  rw [h.bytes, hplaces, Place.shown_append h.passed, List.flatMap_append, Place.shown]
  simp [Place.bytes, Place.passes, (Pending.isFinal_iff.1 h.final).2]

end Steps

/-! ### The flush -/

section Flush

variable {ps : List (Pending π)} {p : Pending π} {out : Net.Chain} {next : Nat} {log : Log π}
  {sent : Bytes} {done : List (Place π)} {begun : Net.Chain}

/-- The output of the first response goes out behind what has gone out of it before. -/
theorem Shows.bytes_first (h : (⟨p :: ps, out, next⟩ : Line π).Shows log sent done begun) :
    sent ++ (out.append p.out).toBytes =
      done.flatMap Place.bytes ++ (p.ahead begun).out.toBytes := by
  rw [Net.Chain.toBytes_append, ← List.append_assoc, h.bytes, Pending.toBytes_ahead,
    List.append_assoc]

/-- The first response stays in line. -/
theorem Shows.hold (h : (⟨p :: ps, out, next⟩ : Line π).Shows log sent done begun) :
    (⟨{ p with out := {} } :: ps, out.append p.out, next⟩ : Line π).Shows log sent done
      (begun.append p.out) := by
  refine ⟨?_, h.passed, h.bytes_first, fun hnone => absurd hnone (by simp)⟩
  rw [h.places]
  simp [aheadFirst, Pending.ahead]

/-- The first response leaves the line, and the next one follows. -/
theorem Shows.pass (h : (⟨p :: ps, out, next⟩ : Line π).Shows log sent done begun)
    (hpasses : p.passes) :
    (⟨ps, out.append p.out, next⟩ : Line π).Shows log sent (done ++ [.answer (p.ahead begun)])
      {} := by
  refine ⟨?_, ?_, ?_, fun _ => rfl⟩
  · rw [h.places]
    cases ps <;> simp [aheadFirst]
  · simp only [List.mem_append, List.mem_singleton]
    rintro b (hb | rfl)
    · exact h.passed b hb
    · exact hpasses
  · rw [h.bytes_first]
    simp [Place.bytes]

/-- The first response leaves the line, and all others are dropped. -/
theorem Shows.final (h : (⟨p :: ps, out, next⟩ : Line π).Shows log sent done begun)
    (hfinal : p.isFinal) :
    (⟨[], out.append p.out, next⟩ : Line π).Ended log sent done (p.ahead begun) :=
  ⟨rfl, ⟨ps, h.places⟩, h.passed, hfinal, h.bytes_first⟩

end Flush

end Line

/-- The flush takes everything out of the line that is ready: then either the line is at rest, or a
final response went out and nothing more is accepted. -/
theorem flushFront_line (s : Session π) (ps : List (Pending π)) {log : Log π} {sent : Bytes}
    {done : List (Place π)} {begun : Net.Chain}
    (h : (⟨ps, s.out, s.nextSlot⟩ : Line π).Shows log sent done begun) :
    (s.flushFront ps).nextSlot = s.nextSlot ∧
      ((∃ done' begun', (s.flushFront ps).line.Shows log sent done' begun' ∧
          (s.flushFront ps).line.AtRest) ∨
        ∃ done' p, (s.flushFront ps).line.Ended log sent done' p ∧
          (s.flushFront ps).accepting = false) := by
  -- along the line: what is done grows by each response that leaves it
  induction ps generalizing s done begun with
  | nil => exact ⟨rfl, .inl ⟨done, begun, h, by simp [Line.AtRest, line, flushFront]⟩⟩
  | cons p ps ih =>
    rw [flushFront]
    cases hcomplete : p.isComplete with
    | false =>
      refine ⟨rfl, .inl ⟨done, begun.append p.out, h.hold, ?_⟩⟩
      rintro q hq
      cases hq
      exact ⟨hcomplete, rfl⟩
    | true =>
      simp only [Bool.not_true, Bool.false_eq_true, if_false]
      cases hsuccessor : p.successor with
      | some next =>
        have hfinal : p.isFinal := by simp [Pending.isFinal, Pending.passes, hcomplete, hsuccessor]
        exact ⟨rfl, .inr ⟨done, _, h.final hfinal, rfl⟩⟩
      | none =>
        cases hkeep : p.keepAlive with
        | false =>
          have hfinal : p.isFinal := by simp [Pending.isFinal, Pending.passes, hcomplete, hkeep]
          exact ⟨rfl, .inr ⟨done, _, h.final hfinal, rfl⟩⟩
        | true =>
          have hpasses : p.passes := by simp [Pending.passes, hcomplete, hkeep, hsuccessor]
          exact ih { s with out := s.out.append p.out } (h.pass hpasses)

end WireServer.Http.Session
