import WireServer.Proofs.Http.Answering

/-! What goes out of a connection, place by place. A log tells in the order of time which responses
got a place, what each was told, and which interim responses were put between them. Each place has
the bytes that its own story makes, whatever the others are told, and what is shown are the places
in their order up to the first that nothing may follow. -/

namespace WireServer.Http

variable {π : Type}

namespace Pending

/-- What a response in line is told. -/
inductive Input where
  | part (part : Part)
  /-- The server stops: the connection ends behind this response. -/
  | last
  deriving DecidableEq, Inhabited, Repr

def take (p : Pending π) : Input → Pending π
  | .part part => p.accept part
  | .last => { p with keepAlive := false }

@[simp] theorem take_slot (p : Pending π) (input : Input) : (p.take input).slot = p.slot := by
  cases input with
  | part part => exact accept_slot p part
  | last => rfl

@[simp] theorem foldl_take_slot (p : Pending π) (inputs : List Input) :
    (inputs.foldl take p).slot = p.slot := by
  induction inputs generalizing p with
  | nil => rfl
  | cons input inputs ih => rw [List.foldl_cons, ih, take_slot]

theorem take_ahead (c : Net.Chain) (p : Pending π) (input : Input) :
    (p.ahead c).take input = (p.take input).ahead c := by
  cases input with
  | part part => exact accept_ahead c p part
  | last => rfl

/-- The response is all there, and the next one may follow. -/
def passes (p : Pending π) : Bool := p.isComplete && p.keepAlive && p.successor.isNone

/-- The response is all there, and nothing follows it: it ends the connection or hands it over. -/
def isFinal (p : Pending π) : Bool := p.isComplete && !p.passes

theorem isComplete_of_passes {p : Pending π} (h : p.passes) : p.isComplete := by
  simp only [passes, Bool.and_eq_true] at h
  exact h.1.1

theorem isFinal_iff {p : Pending π} : p.isFinal ↔ p.isComplete ∧ p.passes = false := by
  simp [isFinal]

end Pending

namespace Session

/-! ### The log -/

/-- What happens to the line. -/
inductive Change (π : Type) where
  /-- A response gets the last place. -/
  | admitted (p : Pending π)
  | told (slot : Nat) (input : Pending.Input)
  /-- The client is told to go on with its body. -/
  | interim
  deriving DecidableEq, Inhabited, Repr

abbrev Log (π : Type) := List (Change π)

/-- A place in what goes out. -/
inductive Place (π : Type) where
  | answer (p : Pending π)
  | interim
  deriving DecidableEq, Inhabited, Repr

namespace Place

def bytes : Place π → Bytes
  | .answer p => p.out.toBytes
  | .interim => continueLine

def passes : Place π → Bool
  | .answer p => p.passes
  | .interim => true

def slot? : Place π → Option Nat
  | .answer p => some p.slot
  | .interim => none

/-- What is told to a slot reaches the response in it. -/
def tell (slot : Nat) (input : Pending.Input) : Place π → Place π
  | .answer p => .answer (if p.slot = slot then p.take input else p)
  | .interim => .interim

def response? : Place π → Option (Pending π)
  | .answer p => some p
  | .interim => none

/-- The places up to the first that nothing may follow yet, or ever. -/
def shown : List (Place π) → List (Place π)
  | [] => []
  | b :: bs => b :: if b.passes then shown bs else []

theorem shown_append {done : List (Place π)} (hdone : ∀ b ∈ done, b.passes)
    (rest : List (Place π)) : shown (done ++ rest) = done ++ shown rest := by
  induction done with
  | nil => rfl
  | cons b done ih =>
    rw [List.forall_mem_cons] at hdone
    rw [List.cons_append, shown, if_pos hdone.1, ih hdone.2, List.cons_append]

/-- At most the last of what is shown does not pass. -/
theorem passes_of_mem_dropLast {bs : List (Place π)} {b : Place π} (h : b ∈ (shown bs).dropLast) :
    b.passes := by
  induction bs with
  | nil => cases h
  | cons b' bs ih =>
    rw [shown] at h
    split at h
    · rename_i hpasses
      rcases hrest : shown bs with _ | ⟨c, cs⟩
      · simp [hrest] at h
      · rw [hrest, List.dropLast_cons_cons, List.mem_cons, ← hrest] at h
        rcases h with rfl | h
        · exact hpasses
        · exact ih h
    · cases h

/-- Which responses are shown does not depend on what stands between them. -/
theorem filterMap_shown (bs : List (Place π)) :
    (shown bs).filterMap response? =
      (shown ((bs.filterMap response?).map .answer)).filterMap response? := by
  induction bs with
  | nil => rfl
  | cons b bs ih =>
    cases b with
    | answer p =>
      simp only [shown, List.filterMap_cons, response?, List.map_cons]
      split
      · rw [ih]
      · rfl
    | interim =>
      rw [shown, if_pos (by rfl), List.filterMap_cons_none rfl, List.filterMap_cons_none rfl, ih]

theorem filterMap_slot? (bs : List (Place π)) :
    bs.filterMap slot? = (bs.filterMap response?).map Pending.slot := by
  rw [List.map_filterMap]
  refine congrFun (congrArg List.filterMap (funext fun b => ?_)) bs
  cases b <;> rfl

/-- A response that may be followed has heard everything. -/
theorem tell_of_passes {b : Place π} (h : b.passes) (slot : Nat) (part : Part) :
    b.tell slot (.part part) = b := by
  cases b with
  | answer p =>
    simp only [tell, Pending.take, Pending.accept_of_complete (Pending.isComplete_of_passes h),
      ite_self]
  | interim => rfl

theorem map_tell_of_passes {done : List (Place π)} (hdone : ∀ b ∈ done, b.passes) (slot : Nat)
    (part : Part) : done.map (tell slot (.part part)) = done :=
  (List.map_congr_left fun b hb => tell_of_passes (hdone b hb) slot part).trans (List.map_id done)

theorem tell_of_slot_ne {b : Place π} {slot : Nat} (h : slot ∉ b.slot?) (input : Pending.Input) :
    b.tell slot input = b := by
  cases b with
  | answer p =>
    simp only [slot?, Option.mem_def, Option.some.injEq] at h
    simp only [tell, if_neg h]
  | interim => rfl

end Place

namespace Log

/-- What a slot was told, in its order. -/
def told (slot : Nat) : Log π → List Pending.Input
  | [] => []
  | .told other input :: log => if other = slot then input :: told slot log else told slot log
  | _ :: log => told slot log

/-- The places as they are when the log ends: each response hears what its slot is told from then
on. -/
def places : Log π → List (Place π)
  | [] => []
  | .admitted p :: log => .answer ((told p.slot log).foldl Pending.take p) :: places log
  | .told _ _ :: log => places log
  | .interim :: log => .interim :: places log

/-- The places as they were when they were taken. -/
def arrivals : Log π → List (Place π)
  | [] => []
  | .admitted p :: log => .answer p :: arrivals log
  | .told _ _ :: log => arrivals log
  | .interim :: log => .interim :: arrivals log

/-- What the response in a slot heard. -/
def heard (slot : Nat) : Log π → List Pending.Input
  | [] => []
  | .admitted p :: log => if p.slot = slot then told slot log else heard slot log
  | _ :: log => heard slot log

/-- The slots that got a place, in the order of the places. -/
def slots (log : Log π) : List Nat := (arrivals log).filterMap Place.slot?

theorem told_append (slot : Nat) (log more : Log π) :
    told slot (log ++ more) = told slot log ++ told slot more := by
  induction log with
  | nil => rfl
  | cons c log ih =>
    cases c with
    | told other input =>
      simp only [List.cons_append, told, ih]
      split <;> rfl
    | admitted p => exact ih
    | interim => exact ih

theorem places_admitted (log : Log π) (p : Pending π) :
    places (log ++ [.admitted p]) = places log ++ [.answer p] := by
  induction log with
  | nil => rfl
  | cons c log ih => cases c <;> simp [places, ih, told_append, told]

theorem places_interim (log : Log π) : places (log ++ [.interim]) = places log ++ [.interim] := by
  induction log with
  | nil => rfl
  | cons c log ih => cases c <;> simp [places, ih, told_append, told]

theorem places_told (log : Log π) (slot : Nat) (input : Pending.Input) :
    places (log ++ [.told slot input]) = (places log).map (Place.tell slot input) := by
  induction log with
  | nil => rfl
  | cons c log ih =>
    cases c with
    | admitted p =>
      simp only [List.cons_append, places, List.map_cons, ih, told_append, told, Place.tell,
        Pending.foldl_take_slot, eq_comm (a := slot)]
      split <;> simp
    | told other input => simpa only [List.cons_append, places] using ih
    | interim => simp only [List.cons_append, places, List.map_cons, ih, Place.tell]

theorem arrivals_append (log more : Log π) :
    arrivals (log ++ more) = arrivals log ++ arrivals more := by
  induction log with
  | nil => rfl
  | cons c log ih => cases c <;> simp [arrivals, ih]

theorem slots_append (log more : Log π) : slots (log ++ more) = slots log ++ slots more := by
  rw [slots, arrivals_append, List.filterMap_append]
  rfl

@[simp] theorem filterMap_places (log : Log π) :
    (places log).filterMap Place.slot? = slots log := by
  induction log with
  | nil => rfl
  | cons c log ih =>
    cases c with
    | admitted p =>
      simp only [places, slots, arrivals, List.filterMap_cons, Place.slot?, Pending.foldl_take_slot,
        ih]
    | told slot input => exact ih
    | interim => exact ih

/-- A place when its response heard all that it did. -/
def hear (log : Log π) : Place π → Place π
  | .answer p => .answer ((heard p.slot log).foldl Pending.take p)
  | .interim => .interim

/-- A place depends on what its own slot was told. -/
theorem places_eq_map (log : Log π) (hslots : (slots log).Nodup) :
    places log = (arrivals log).map (hear log) := by
  induction log with
  | nil => rfl
  | cons c log ih =>
    cases c with
    | admitted p =>
      obtain ⟨hfresh, hslots⟩ := List.nodup_cons.1 hslots
      -- what this response hears is nothing to later ones, which have other slots
      have hlater : (arrivals log).map (hear log) =
          (arrivals log).map (hear (.admitted p :: log)) := by
        refine List.map_congr_left fun b hb => ?_
        cases b with
        | answer q =>
          have hother : p.slot ≠ q.slot := fun heq =>
            hfresh (List.mem_filterMap.2 ⟨.answer q, hb, congrArg some heq.symm⟩)
          simp only [hear, heard, if_neg hother]
        | interim => rfl
      rw [places, arrivals, List.map_cons, ih hslots, hlater]
      simp only [hear, heard, if_pos]
    | told slot input => exact ih hslots
    | interim => exact congrArg (.interim :: ·) (ih hslots)

theorem responses_places (log : Log π) (hslots : (slots log).Nodup) :
    (places log).filterMap Place.response? = ((arrivals log).filterMap Place.response?).map
      fun p => (heard p.slot log).foldl Pending.take p := by
  rw [places_eq_map log hslots, List.filterMap_map, List.map_filterMap]
  refine congrFun (congrArg List.filterMap (funext fun b => ?_)) _
  cases b <;> rfl

section Interleaving

variable {log other : Log π}

/-- What is told to different slots may come in any order. -/
theorem responses_congr (hslots : (slots log).Nodup)
    (harrivals : (arrivals log).filterMap Place.response? =
      (arrivals other).filterMap Place.response?)
    (hheard : ∀ slot, heard slot log = heard slot other) :
    (places log).filterMap Place.response? = (places other).filterMap Place.response? := by
  have hother : (slots other).Nodup := by
    rwa [slots, Place.filterMap_slot?, ← harrivals, ← Place.filterMap_slot?]
  simp only [responses_places log hslots, responses_places other hother, harrivals, hheard]

theorem places_congr (hslots : (slots log).Nodup) (harrivals : arrivals log = arrivals other)
    (hheard : ∀ slot, heard slot log = heard slot other) : places log = places other := by
  have hhear : hear log = hear other := by
    funext b
    cases b with
    | answer p => simp only [hear, hheard]
    | interim => rfl
  rw [places_eq_map log hslots, places_eq_map other (by rwa [slots, ← harrivals]), harrivals, hhear]

end Interleaving

end Log

end Session

end WireServer.Http
