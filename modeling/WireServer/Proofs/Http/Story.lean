import WireServer.Proofs.Http.Order

/-! The story of a session: its log, with the reads and the decoded heads between the changes. A
story is proper where interim responses stand directly behind the heads that they belong to, and
none is missing that should be there. -/

namespace WireServer.Http.Session

variable {τ α π : Type}

/-! ### The story of a run -/

/-- What is told of a session: its log, with the reads and the heads that were decoded between. -/
inductive Beat (π : Type) where
  | reads
  | head (head : RequestHead) (size : BodySize)
  | change (c : Change π)
  deriving DecidableEq, Inhabited, Repr

abbrev Story (π : Type) := List (Beat π)

def Beat.change? : Beat π → Option (Change π)
  | .change c => some c
  | _ => none

namespace Story

/-- The log in a story. -/
def log (story : Story π) : Log π := story.filterMap Beat.change?

def ofLog (log : Log π) : Story π := log.map .change

@[simp] theorem log_append (story more : Story π) : log (story ++ more) = log story ++ log more :=
  List.filterMap_append

@[simp] theorem log_ofLog (l : Log π) : log (ofLog l) = l := by
  rw [log, ofLog, List.filterMap_map]
  exact List.filterMap_some

end Story

/-- A decoded head, in front of all that is done about it. -/
def eventBeats (service : Service α π) (t : Turn α π) : RequestEvent → Story π
  | .head head size => .head head size :: Story.ofLog (t.session.startChanges head size)
  | e => Story.ofLog (eventChanges service t e)

def processBeats (service : Service α π) : Nat → Turn α π → Story π
  | 0, _ => []
  | fuel + 1, t =>
    if t.session.mode ≠ .serving || !t.session.accepting then []
    else match t.session.decoder.decode t.session.buffer with
      | (d, buffer, .error e) =>
        Story.ofLog ({ t.session with decoder := d, buffer }.rejectChanges t.session.expecting e)
      | (_, _, .ok none) => []
      | (d, buffer, .ok (some event)) =>
        let t := t.modify fun s => { s with decoder := d, buffer }
        eventBeats service t event ++ processBeats service fuel (handleEvent service t event)

def readBeats (service : Service α π) (t : Turn α π) (src : Bytes) : Story π :=
  let kept := t.modify fun s => { s with buffer := s.buffer ++ src }
  match t.session.mode with
  | .serving =>
    if t.session.accepting then
      .reads :: processBeats service (2 * kept.session.buffer.length + 3) kept
    else []
  | _ => []

def beats (service : Service α π) (t : Turn α π) : Event τ α π → Story π
  | .read src => readBeats service t src
  | e => Story.ofLog (changes service t e)

/-- The story of a run from here on. -/
def story (service : Service α π) (socket : Net.Sender τ) (r : Record α π) :
    List (Event τ α π) → Story π
  | [] => []
  | e :: es => beats service r.turn e ++ story service socket (r.next service socket e) es

section Log

variable (service : Service α π) (t : Turn α π)

theorem log_eventBeats (e : RequestEvent) :
    (eventBeats service t e).log = eventChanges service t e := by
  cases e with
  | head head size => exact Story.log_ofLog (t.session.startChanges head size)
  | body item => exact Story.log_ofLog _

theorem log_processBeats (fuel : Nat) :
    (processBeats service fuel t).log = processChanges service fuel t := by
  induction fuel generalizing t with
  | zero => rfl
  | succ fuel ih =>
    rw [processBeats, processChanges]
    split
    · rfl
    rcases t.session.decoder.decode t.session.buffer with ⟨d, buffer, e | _ | event⟩
    · exact Story.log_ofLog _
    · rfl
    · simp only [Story.log_append, log_eventBeats, ih]

theorem log_beats (e : Event τ α π) : (beats service t e).log = changes service t e := by
  cases e with
  | read src =>
    simp only [beats, changes, readBeats, readChanges]
    cases t.session.mode with
    | serving =>
      dsimp only
      split
      · exact log_processBeats service _ _
      · rfl
    | upgrading => rfl
    | failed => rfl
  | _ => exact Story.log_ofLog _

/-- The story tells all of the log. -/
theorem log_story (socket : Net.Sender τ) (r : Record α π) (es : List (Event τ α π)) :
    (r.run service socket es).log = r.log ++ (story service socket r es).log := by
  induction es generalizing r with
  | nil => exact (List.append_nil r.log).symm
  | cons e es ih =>
    rw [story, Story.log_append, log_beats, ← List.append_assoc]
    exact ih (r.next service socket e)

end Log

/-! ### Stories in which interim responses are where they belong -/

namespace Story

/-- No response got a place since the last read began. -/
def Quiet (front : Story π) : Prop :=
  ∃ earlier since, front = earlier ++ .reads :: since ∧ ∀ p, .change (.admitted p) ∉ since

theorem Quiet.of_append {front more : Story π} (h : Quiet (front ++ more)) (hmore : .reads ∉ more) :
    Quiet front ∧ ∀ p, .change (.admitted p) ∉ more := by
  obtain ⟨earlier, since, heq, hsince⟩ := h
  rcases List.append_eq_append_iff.1 heq with ⟨as, -, hlater⟩ | ⟨as, hfront, hlater⟩
  · exact absurd (by simp [hlater]) hmore
  · cases as with
    | nil => exact absurd (by simp [← show _ = more from hlater]) hmore
    | cons b as =>
      obtain ⟨rfl, rfl⟩ := List.cons.inj hlater
      exact ⟨⟨earlier, as, hfront, fun p hp => hsince p (List.mem_append_left _ hp)⟩,
        fun p hp => hsince p (List.mem_append_right _ hp)⟩

/-- A beat fits between what is told before it and behind it. -/
def Fits (maxBody : Nat) (front : Story π) : Beat π → Story π → Prop
  | .head head size, back =>
    (∀ n, size = .length n → 0 < n ∧ n ≤ maxBody) ∧
      (head.expectsContinue → size ≠ .empty → Quiet front → [.change .interim] <+: back)
  | .change .interim, _ =>
    ∃ before head size, front = before ++ [.head head size] ∧ head.expectsContinue ∧ size ≠ .empty
  | _, _ => True

/-- A later part of a story, behind a front: each of its beats fits. -/
def Proper (maxBody : Nat) (front story : Story π) : Prop :=
  ∀ before b back, story = before ++ b :: back → Fits maxBody (front ++ before) b back

section Proper

variable {maxBody : Nat} {front story more : Story π} {b : Beat π}

theorem Fits.extend (h : Fits maxBody front b story) (more : Story π) :
    Fits maxBody front b (story ++ more) := by
  match b with
  | .head head size =>
    exact ⟨h.1, fun hexpects hsize hquiet =>
      (h.2 hexpects hsize hquiet).trans (List.prefix_append _ _)⟩
  | .reads => exact trivial
  | .change .interim => exact h
  | .change (.admitted p) => exact trivial
  | .change (.told slot input) => exact trivial

theorem Proper.nil : Proper maxBody front ([] : Story π) := fun before b back h => by
  simp at h

theorem Proper.cons (hb : Fits maxBody front b story)
    (h : Proper maxBody (front ++ [b]) story) : Proper maxBody front (b :: story) := by
  intro before c back heq
  cases before with
  | nil =>
    obtain ⟨rfl, rfl⟩ := List.cons.inj heq
    simpa using hb
  | cons d before =>
    obtain ⟨rfl, rfl⟩ := List.cons.inj heq
    simpa using h before c back rfl

theorem Proper.append (h : Proper maxBody front story)
    (hmore : Proper maxBody (front ++ story) more) : Proper maxBody front (story ++ more) := by
  intro before b back heq
  rcases List.append_eq_append_iff.1 heq with ⟨as, rfl, hlater⟩ | ⟨as, rfl, hlater⟩
  · simpa using hmore as b back hlater
  · cases as with
    | nil => simpa using hmore [] b back hlater.symm
    | cons c as =>
      obtain ⟨rfl, rfl⟩ := List.cons.inj hlater
      exact (h before b as rfl).extend more

/-- Without interim responses there is nothing to it. -/
theorem proper_ofLog {l : Log π} (h : .interim ∉ l) : Proper maxBody front (ofLog l) := by
  intro before b back heq
  have hb : b ∈ ofLog l := heq ▸ by simp
  obtain ⟨c, hc, rfl⟩ := List.mem_map.1 hb
  cases c with
  | interim => exact absurd hc h
  | admitted p => exact trivial
  | told slot input => exact trivial

end Proper

end Story

/-! ### What is told of a call -/

section Changes

variable (service : Service α π) (t : Turn α π)

theorem interim_not_mem_serveChanges (desk : Desk α) (p : Pending π) (r : Request) :
    .interim ∉ serveChanges service desk p r := by
  intro h
  rcases List.mem_cons.1 h with h | h
  · cases h
  · obtain ⟨slot, part, h⟩ := parts_handlerChanges h
    cases h

theorem interim_not_mem_answeredChanges (p : Pending π) (r : Response) :
    .interim ∉ answeredChanges p r := by
  simp [answeredChanges]

theorem interim_not_mem_dispatchChanges (r : Request) :
    .interim ∉ dispatchChanges service t r := by
  unfold dispatchChanges
  dsimp only
  split
  · exact interim_not_mem_serveChanges service _ _ r
  split
  · exact interim_not_mem_answeredChanges _ _
  · exact interim_not_mem_serveChanges service _ _ r
  · exact interim_not_mem_answeredChanges _ _
  · exact interim_not_mem_answeredChanges _ _

theorem admitted_mem_dispatchChanges (r : Request) :
    ∃ p, .admitted p ∈ dispatchChanges service t r := by
  unfold dispatchChanges
  dsimp only
  split
  · exact ⟨_, List.mem_cons_self⟩
  split <;> exact ⟨_, List.mem_cons_self⟩

theorem interim_not_mem_changes {e : Event τ α π} (he : ∀ src, e ≠ .read src) :
    .interim ∉ changes service t e := by
  cases e with
  | read src => exact absurd rfl (he src)
  | wakeup items =>
    intro h
    obtain ⟨slot, part, h⟩ := parts_itemChanges h
    cases h
  | stop =>
    simp only [changes, stopChanges, lastChanges]
    split
    · simp
    split
    · simp
    split <;> simp
  | write io => simp [changes]
  | takeLeftover => simp [changes]
  | outside ctx desk => simp [changes]

end Changes

end WireServer.Http.Session
