import Mathlib.Data.List.Pairwise
import Mathlib.Logic.Relation
import DataCrystal.Lib.Run

/-!
# Submissions

Other threads hand closures to the owner of a store and wait for the answer in a
future. The owner takes the queued closures at its next call; a closure the owner
submits itself runs at once. A result that carries a live entity or a handle to one
is refused.

A closure is arbitrary code, so it is not in the model: it runs from the event that
starts it to the event that ends it, and in between anything may happen that code on
the owner thread can do, a nested submission or a close included. What a closure
returns is an object graph, and a container in it may hold itself.

The scan of a result is a recursion with a frame for each level of nesting. It is
outside the region whose exceptions are handed to the future, so a result the stack
does not hold leaves the future unanswered and ends the owner's call. `Scannable`
says when the stack holds it. A close from within a queued closure answers the
queue before the closure is answered.

A thread that submits looks whether the store is open and appends its closure
afterwards, and the store may close in between. So these are two events, and
`append_closed` says that a closure appended to a closed store waits for ever. The
other events are single steps: a deque's own operations are, and a pump that another
thread's close overtakes between two closures is the run where the close comes first.

## Main definitions

* `Cell`, `Returned`: The results of closures.
* `findEscapee`: The scan for an entity or a handle.
* `Submissions`, `SubmitEvent`: The queue, the pump and the futures.
* `AllAnswered`: What submitters are promised.
* `Fits`: The stack holds the scan, and nobody waits behind a closure that closes.

## Theorems

* `findEscapee_spec`: What the scan finds.
* `orderly_step`: The invariant of the runs that fit.
* `submissions_answered`: The promise.
* `finish_without_room`: What happens when the stack does not hold the scan.
* `append_closed`: What happens when the store closes while a thread submits.
-/

namespace DataCrystal

/-- An object of a result. -/
inductive Cell
  | plain
  | entity (typename : String)
  /-- A handle, with the class of its target if it has loaded one. -/
  | lazy (target : Option String)
  /-- A list, a tuple or a set. -/
  | items (xs : List Nat)
  | dict (entries : List (Nat × Nat))

namespace Cell

/-- What the scan calls an object that must not leave the owner. -/
def offender : Cell → Option String
  | .entity c => some c
  | .lazy (some c) => some ("Lazy[" ++ c ++ "]")
  | .lazy none => some "Lazy"
  | _ => none

/-- The objects of a container in the order of the scan, each key before its value. -/
def parts : Cell → List Nat
  | .items xs => xs
  | .dict entries => entries.flatMap fun e => [e.1, e.2]
  | _ => []

end Cell

/-- What a closure returned: an object among others. -/
structure Returned where
  cells : Nat → Cell
  root : Nat

/-- The first thing found in a list. The outer `none` is that a scan raised. -/
def firstFound (scan : Nat → Option (Option String)) : List Nat → Option (Option String)
  | [] => some none
  | x :: xs =>
    match scan x with
    -- A scan that raises ends the search.
    | none => none
    | some none => firstFound scan xs
    | some (some name) => some (some name)

/-- Name the first entity or handle inside a result. There is room for so many frames
    on the stack, and nothing is returned when they do not suffice. -/
def findEscapee (cells : Nat → Cell) : Nat → Nat → Option (Option String)
  | 0, _ => none
  | room + 1, v =>
    -- An entity or a handle is not looked into.
    match (cells v).offender with
    | some name => some (some name)
    | none => firstFound (findEscapee cells room) (cells v).parts

/-- The outcomes of a future. What a closure raises is handed on as it is, also an
    `EntityEscapeError` it got from the answer to a submission of its own. -/
inductive Outcome
  | value (r : Returned)
  | raised (e : String)
  /-- The `EntityEscapeError` of the scan, with what it found. -/
  | escape (offender : String)
  | storeClosed

/-- What the future of a closure receives, if the scan returns. -/
def outcomeOf (room : Nat) : Except String Returned → Option Outcome
  | .error e => some (.raised e)
  | .ok r => (findEscapee r.cells room r.root).map fun found =>
    match found with
    -- The value is withheld: an entity does not cross threads.
    | some name => .escape name
    | none => .value r

/-- An answered future, with how its closure ended if it ran. -/
structure Answer where
  future : Nat
  ended : Option (Except String Returned)
  outcome : Outcome

/-- Where the pump stands. -/
inductive Pump
  | idle
  /-- It is about to take the next closure. -/
  | taking
  /-- A queued closure runs, and within it the closures it submitted itself, the
      innermost first. -/
  | running (f : Nat) (inner : List Nat)

/-- The submissions of a store. Futures are numbered as they are queued or started, so
    the queue is in the order of the numbers. -/
structure Submissions where
  made : Nat := 0
  /-- How many threads found the store open and have not appended their closure yet. -/
  checked : Nat := 0
  queue : List Nat := []
  cancelled : List Nat := []
  closed : Bool := false
  pump : Pump := .idle
  /-- The closures the owner submitted and runs outside of a pump. -/
  inline : List Nat := []
  answers : List Answer := []
  /-- The cancelled futures that were taken off the queue. -/
  dropped : List Nat := []
  /-- The futures of every submission from another thread. Nothing reads it. -/
  queued : List Nat := []
  /-- The futures whose closure ended and that were not answered. Nothing reads it. -/
  abandoned : List Nat := []
  /-- How many exceptions left the pump or an inline submission. Nothing reads it. -/
  surfaced : Nat := 0

inductive SubmitEvent
  /-- Another thread submits: it looks whether the store is open. -/
  | submit
  /-- A thread that found the store open appends its closure to the queue. -/
  | append
  /-- The owner submits: from its own code, or from a closure that runs. -/
  | submitInline
  | cancel (f : Nat)
  /-- An owner call, or `run_pending`, comes to the pump. -/
  | enter
  /-- The pump takes the next closure, or returns. -/
  | take
  /-- The innermost closure ends. -/
  | finish (room : Nat) (ended : Except String Returned)
  | close

namespace Submissions

def answer (f : Nat) (ended : Option (Except String Returned)) (o : Outcome) (s : Submissions) :
    Submissions := { s with answers := s.answers ++ [⟨f, ended, o⟩] }

/-- The end of a submission: its future is answered, or the scan raises. -/
def conclude (f room : Nat) (ended : Except String Returned) (s : Submissions) : Submissions :=
  match outcomeOf room ended with
  | some o => s.answer f (some ended) o
  | none => { s with abandoned := f :: s.abandoned, surfaced := s.surfaced + 1 }

/-- A queued future of a store that closes. -/
def failClosed (s : Submissions) (f : Nat) : Submissions :=
  if f ∈ s.cancelled then { s with dropped := f :: s.dropped } else s.answer f none .storeClosed

def step (s : Submissions) : SubmitEvent → Submissions
  | .submit => if s.closed then s else { s with checked := s.checked + 1 }
  | .append =>
    -- The store is not looked at again.
    if s.checked = 0 then s
    else { s with
      checked := s.checked - 1, made := s.made + 1, queue := s.queue ++ [s.made],
      queued := s.made :: s.queued }
  | .submitInline =>
    if s.closed then s
    else
      match s.pump with
      | .idle => { s with made := s.made + 1, inline := s.made :: s.inline }
      | .taking => s
      | .running f inner => { s with made := s.made + 1, pump := .running f (s.made :: inner) }
  | .cancel f => if f ∈ s.queue then { s with cancelled := f :: s.cancelled } else s
  | .enter =>
    match s.pump with
    | .idle => if s.closed || s.queue.isEmpty then s else { s with pump := .taking }
    | _ => s
  | .take =>
    match s.pump, s.queue with
    | .taking, [] => { s with pump := .idle }
    | .taking, f :: rest =>
      if f ∈ s.cancelled then { s with queue := rest, dropped := f :: s.dropped }
      else { s with queue := rest, pump := .running f [] }
    | _, _ => s
  | .finish room ended =>
    match s.pump, s.inline with
    | .running f (g :: inner), _ => { s with pump := .running f inner }.conclude g room ended
    | .running f [], _ =>
      -- An exception of the scan leaves the loop; the flag is reset on the way out.
      { s with pump := if (outcomeOf room ended).isSome then .taking else .idle }.conclude f room
        ended
    | .idle, g :: rest => { s with inline := rest }.conclude g room ended
    | _, _ => s
  | .close =>
    if s.closed then s
    else s.queue.foldl failClosed { s with closed := true, queue := [] }

/-- The queued submission that runs. -/
def pumped (s : Submissions) : List Nat :=
  match s.pump with
  | .running f _ => [f]
  | _ => []

/-- The inline submissions that run. -/
def inlined (s : Submissions) : List Nat :=
  match s.pump with
  | .running _ inner => inner ++ s.inline
  | _ => s.inline

/-- The answered futures in the order they were answered in. -/
def answered (s : Submissions) : List Nat := s.answers.map Answer.future

end Submissions

section Escapees

variable {cells : Nat → Cell} {room v : Nat}

/-- An entity or a handle occurs in an object, at some depth. The objects may refer
    to each other in a circle, so this is a path and no recursion. -/
def Occurs (cells : Nat → Cell) (v : Nat) : Prop :=
  ∃ w, Relation.ReflTransGen (fun a b => b ∈ (cells a).parts) v w ∧ (cells w).offender.isSome

theorem occurs_iff : Occurs cells v ↔
    (cells v).offender.isSome ∨ ∃ x ∈ (cells v).parts, Occurs cells x := by
  constructor
  · rintro ⟨w, hvw, hw⟩
    rcases Relation.ReflTransGen.cases_head hvw with rfl | ⟨x, hx, hxw⟩
    · exact Or.inl hw
    · exact Or.inr ⟨x, hx, w, hxw, hw⟩
  · rintro (hv | ⟨x, hx, w, hxw, hw⟩)
    · exact ⟨v, .refl, hv⟩
    · exact ⟨w, .head hx hxw, hw⟩

/-- Every member of a list up to the first one that stops is good. -/
def UpTo (stop good : Nat → Prop) : List Nat → Prop
  | [] => True
  | x :: xs => good x ∧ (stop x ∨ UpTo stop good xs)

/-- What the scan walks, up to the first entity or handle, is nested no deeper than
    there is room for. -/
def Scannable (cells : Nat → Cell) : Nat → Nat → Prop
  | 0, _ => False
  | room + 1, v => UpTo (Occurs cells) (Scannable cells room) (cells v).parts

/-- An object that refers to nothing can be scanned. -/
theorem scannable_of_parts (h : (cells v).parts = []) : Scannable cells (room + 1) v := by
  unfold Scannable
  rw [h]
  trivial

/-- A scan of a list by a scan of its members that is right. -/
theorem firstFound_spec {scan : Nat → Option (Option String)} {stop good : Nat → Prop}
    (hgood : ∀ x, (scan x).isSome ↔ good x) (hfound : ∀ x name, scan x = some (some name) → stop x)
    (hclear : ∀ x, scan x = some none → ¬stop x) : ∀ xs : List Nat,
    ((firstFound scan xs).isSome ↔ UpTo stop good xs) ∧
      (∀ name, firstFound scan xs = some (some name) → ∃ x ∈ xs, stop x) ∧
      (firstFound scan xs = some none → ∀ x ∈ xs, ¬stop x) := by
  intro xs
  induction xs with
  | nil =>
      refine ⟨iff_of_true rfl trivial, fun name h => ?_, fun _ x hx => ?_⟩
      · cases h
      · cases hx
  | cons x xs ih =>
      rcases ih with ⟨ihgood, ihfound, ihclear⟩
      unfold UpTo firstFound
      -- A part that does not scan ends the walk with an error, one that holds an escapee
      -- with its name, and any other leaves it to the rest.
      have hx := hgood x
      cases hscan : scan x with
      | none =>
          rw [hscan] at hx
          refine ⟨iff_of_false (by simp) fun hup => ?_, fun name h => ?_, fun h => ?_⟩
          · exact absurd (hx.mpr hup.1) (by simp)
          · cases h
          · cases h
      | some found =>
          rw [hscan] at hx
          have hgoodx : good x := hx.mp rfl
          cases found with
          | some name =>
              have hstop := hfound x name hscan
              refine ⟨iff_of_true rfl ⟨hgoodx, Or.inl hstop⟩, fun _ _ => ?_, fun h => ?_⟩
              · exact ⟨x, List.mem_cons_self, hstop⟩
              · cases h
          | none =>
              have hstop := hclear x hscan
              refine ⟨?_, fun name h => ?_, fun h y hy => ?_⟩
              · dsimp only
                rw [ihgood]
                constructor
                · exact fun hup => ⟨hgoodx, Or.inr hup⟩
                · exact fun hup => hup.2.resolve_left hstop
              · rcases ihfound name h with ⟨y, hy, hys⟩
                exact ⟨y, List.mem_cons_of_mem _ hy, hys⟩
              · rcases List.mem_cons.mp hy with rfl | hy
                · exact hstop
                · exact ihclear h y hy

/-- The scan returns if and only if there is room for it, it names something only if
    something occurs, and nothing only if nothing does. -/
theorem findEscapee_spec (cells : Nat → Cell) : ∀ room v : Nat,
    ((findEscapee cells room v).isSome ↔ Scannable cells room v) ∧
      (∀ name, findEscapee cells room v = some (some name) → Occurs cells v) ∧
      (findEscapee cells room v = some none → ¬Occurs cells v) := by
  intro room
  induction room with
  | zero =>
      intro v
      refine ⟨iff_of_false (by simp [findEscapee]) fun h => h, fun name h => ?_, fun h => ?_⟩
      · cases h
      · cases h
  | succ room ih =>
      intro v
      rw [occurs_iff]
      have hparts := firstFound_spec (fun x => (ih x).1) (fun x => (ih x).2.1)
        (fun x => (ih x).2.2) (cells v).parts
      unfold findEscapee Scannable
      cases hoff : (cells v).offender with
      | some name =>
          -- An entity and a handle have no parts.
          have hnil : (cells v).parts = [] := by
            cases hcell : cells v <;> simp [hcell, Cell.offender, Cell.parts] at hoff ⊢
          refine ⟨iff_of_true rfl ?_, fun _ _ => Or.inl rfl, fun h => ?_⟩
          · rw [hnil]
            trivial
          · cases h
      | none =>
          refine ⟨hparts.1, fun name h => Or.inr (hparts.2.1 name h), fun h hocc => ?_⟩
          rcases hocc with hself | ⟨x, hx, hxo⟩
          · cases hself
          · exact hparts.2.2 h x hx hxo

end Escapees

/-- The outcome of a future is the one its closure calls for. -/
def Answer.Right (a : Answer) : Prop :=
  match a.ended with
  -- No result: the store was closed before its turn.
  | none => a.outcome = .storeClosed
  | some (.error e) => a.outcome = .raised e
  | some (.ok r) => (Occurs r.cells r.root → ∃ name, a.outcome = .escape name) ∧
      (¬Occurs r.cells r.root → a.outcome = .value r)

/-- The stack has room for the scan of what a closure returned. A result that raised
    is not scanned. -/
def Room (room : Nat) : Except String Returned → Prop
  | .ok r => Scannable r.cells room r.root
  | .error _ => True

theorem outcomeOf_isSome_iff (room : Nat) (ended : Except String Returned) :
    (outcomeOf room ended).isSome ↔ Room room ended := by
  cases ended with
  | error e => exact iff_of_true rfl trivial
  | ok r =>
      unfold outcomeOf
      rw [Option.isSome_map]
      exact (findEscapee_spec r.cells room r.root).1

theorem outcomeOf_right {f room : Nat} {ended : Except String Returned} {o : Outcome}
    (h : outcomeOf room ended = some o) : Answer.Right ⟨f, some ended, o⟩ := by
  cases ended with
  | error e => exact (Option.some.inj h).symm
  | ok r =>
      have hspec := (findEscapee_spec r.cells room r.root).2
      rw [outcomeOf] at h
      cases hfound : findEscapee r.cells room r.root with
      | none =>
          rw [hfound] at h
          cases h
      | some found =>
          rw [hfound] at h
          cases h
          cases found with
          | some name =>
              have hocc := hspec.1 name hfound
              exact ⟨fun _ => ⟨name, rfl⟩, fun hno => absurd hocc hno⟩
          | none =>
              have hno := hspec.2 hfound
              exact ⟨fun hocc => absurd hocc hno, fun _ => rfl⟩

namespace Submissions

variable {s : Submissions}

/-- What submitters are promised, in a state of a run: no exception has reached
    another caller, every submission waits, runs, was cancelled or was answered once,
    the queue was answered in its order, and rightly. A queued submission never runs
    inline. -/
structure AllAnswered (s : Submissions) : Prop where
  quiet : s.surfaced = 0
  once : ∀ f < s.made, s.queue.count f + s.pumped.count f + s.inlined.count f +
    s.answered.count f + s.dropped.count f = 1
  cancelled : ∀ f ∈ s.dropped, f ∈ s.cancelled
  ordered : (s.answered.filter (· ∈ s.queued)).Pairwise (· < ·)
  right : ∀ a ∈ s.answers, a.Right
  apart : ∀ f ∈ s.inlined, f ∉ s.queued

/-- A pump that returns, or a close, leaves nothing waiting. -/
def Drains (s : Submissions) (e : SubmitEvent) : Prop :=
  (s.pump ≠ .idle ∧ (s.step e).pump = .idle) ∨ e = .close → (s.step e).queue = []

/-- The stack holds the scan of a result, a store that closes from within a queued
    closure has nobody waiting, and no thread appends to a store that has closed. -/
def Fits (s : Submissions) : SubmitEvent → Prop
  | .finish room ended => Room room ended
  | .append => s.checked = 0 ∨ s.closed = false
  | .close => s.pumped = [] ∨ ∀ f ∈ s.queue, f ∈ s.cancelled
  | _ => True

/-- The invariant. The futures of the queue are known by their numbers: answered,
    running and waiting ones ascend. -/
structure Orderly (s : Submissions) : Prop where
  quiet : s.surfaced = 0
  count : ∀ f, s.queue.count f + s.pumped.count f + s.inlined.count f + s.answered.count f +
    s.dropped.count f = if f < s.made then 1 else 0
  cancelled : ∀ f ∈ s.dropped, f ∈ s.cancelled
  ordered : (s.answered.filter (· ∈ s.queued) ++ s.pumped ++ s.queue).Pairwise (· < ·)
  right : ∀ a ∈ s.answers, a.Right
  queued : ∀ f ∈ s.pumped ++ s.queue, f ∈ s.queued
  inlined : ∀ f ∈ s.inlined, f ∉ s.queued
  bounded : ∀ f ∈ s.queued, f < s.made
  closed : s.closed = true → s.queue = []

theorem Orderly.allAnswered (h : s.Orderly) : s.AllAnswered where
  quiet := h.quiet
  once f hf := (h.count f).trans (if_pos hf)
  cancelled := h.cancelled
  ordered := h.ordered.sublist ((List.sublist_append_left _ _).trans (List.sublist_append_left _ _))
  right := h.right
  apart := h.inlined

section Steps

variable {f g room : Nat} {ended : Except String Returned} {o : Outcome}

theorem orderly_start : Orderly {} where
  quiet := rfl
  count _ := rfl
  cancelled _ hf := by cases hf
  ordered := .nil
  right _ ha := by cases ha
  queued _ hf := by cases hf
  inlined _ hf := by cases hf
  bounded _ hf := by cases hf
  closed _ := rfl

/-- A future that is anywhere is one that was made. -/
theorem Orderly.lt_made (h : s.Orderly)
    (hf : f ∈ s.queue ∨ f ∈ s.pumped ∨ f ∈ s.inlined ∨ f ∈ s.answered) : f < s.made := by
  by_contra hlt
  have hcount := h.count f
  rw [if_neg hlt] at hcount
  rcases hf with hf | hf | hf | hf
  all_goals
    have hpos := List.count_pos_iff.mpr hf
    omega

/-- The futures of the queue that are answered, running or waiting were made. -/
theorem Orderly.ordered_lt (h : s.Orderly)
    (hf : f ∈ s.answered.filter (· ∈ s.queued) ++ s.pumped ++ s.queue) : f < s.made := by
  rcases List.mem_append.mp hf with hf | hf
  · rcases List.mem_append.mp hf with hf | hf
    · exact h.lt_made (Or.inr (Or.inr (Or.inr (List.mem_of_mem_filter hf))))
    · exact h.lt_made (Or.inr (Or.inl hf))
  · exact h.lt_made (Or.inl hf)

theorem orderly_append (h : s.Orderly) (hopen : s.closed = false) :
    Orderly { s with
      checked := s.checked - 1, made := s.made + 1, queue := s.queue ++ [s.made],
      queued := s.made :: s.queued } := by
  -- The new future is above all that were made, so it has no answer yet.
  have hanswered : s.answered.filter (· ∈ s.made :: s.queued) =
      s.answered.filter (· ∈ s.queued) := by
    refine List.filter_congr fun f hf => ?_
    have hne : f ≠ s.made :=
      Nat.ne_of_lt (h.lt_made (Or.inr (Or.inr (Or.inr hf))))
    simp [hne]
  refine ⟨h.quiet, fun f => ?_, h.cancelled, ?_, h.right, ?_, ?_, ?_, ?_⟩
  · -- it is in the queue, and in no other place
    have hcount := h.count f
    show (s.queue ++ [s.made]).count f + s.pumped.count f + s.inlined.count f +
      s.answered.count f + s.dropped.count f = if f < s.made + 1 then 1 else 0
    rw [List.count_append]
    by_cases hf : f = s.made
    · subst hf
      simp at hcount ⊢
      omega
    · rw [List.count_singleton, if_neg (by simpa using Ne.symm hf)]
      by_cases hlt : f < s.made
      · rw [if_pos hlt] at hcount
        rw [if_pos (by omega)]
        omega
      · rw [if_neg hlt] at hcount
        rw [if_neg (by omega)]
        omega
  · show (s.answered.filter (· ∈ s.made :: s.queued) ++ s.pumped ++ (s.queue ++ [s.made])).Pairwise _
    rw [hanswered, ← List.append_assoc, List.pairwise_append]
    refine ⟨h.ordered, List.pairwise_singleton _ _, fun f hf g hg => ?_⟩
    rw [List.mem_singleton.mp hg]
    exact h.ordered_lt hf
  · intro f hf
    show f ∈ s.made :: s.queued
    rcases List.mem_append.mp hf with hf | hf
    · exact List.mem_cons_of_mem _ (h.queued f (List.mem_append_left _ hf))
    · rcases List.mem_append.mp hf with hf | hf
      · exact List.mem_cons_of_mem _ (h.queued f (List.mem_append_right _ hf))
      · rw [List.mem_singleton.mp hf]
        exact List.mem_cons_self
  · intro f hf hmem
    rcases List.mem_cons.mp hmem with rfl | hmem
    · exact absurd (h.lt_made (Or.inr (Or.inr (Or.inl hf)))) (Nat.lt_irrefl _)
    · exact h.inlined f hf hmem
  · intro f hf
    rcases List.mem_cons.mp hf with rfl | hf
    · exact Nat.lt_succ_self _
    · exact Nat.lt_succ_of_lt (h.bounded f hf)
  · intro hclosed
    exact absurd (hclosed.symm.trans hopen) (by decide)

/-- The owner starts an inline submission. -/
theorem orderly_inline {t : Submissions} (h : s.Orderly) (hmade : t.made = s.made + 1)
    (hqueue : t.queue = s.queue) (hqueued : t.queued = s.queued) (hpumped : t.pumped = s.pumped)
    (hinlined : t.inlined = s.made :: s.inlined) (hanswers : t.answers = s.answers)
    (hdropped : t.dropped = s.dropped) (hcancelled : t.cancelled = s.cancelled)
    (hquiet : t.surfaced = s.surfaced) (hclosed : t.closed = s.closed) : t.Orderly := by
  have hanswered : t.answered = s.answered := congrArg (List.map Answer.future) hanswers
  refine ⟨hquiet.trans h.quiet, fun f => ?_, ?_, ?_, ?_, ?_, ?_, ?_, ?_⟩
  -- The new future is counted where it runs.
  · have hcount := h.count f
    rw [hqueue, hpumped, hinlined, hanswered, hdropped, hmade]
    by_cases hf : f = s.made
    · subst hf
      simp at hcount ⊢
      omega
    · rw [List.count_cons_of_ne (Ne.symm hf)]
      by_cases hlt : f < s.made
      · rw [if_pos hlt] at hcount
        rw [if_pos (by omega)]
        omega
      · rw [if_neg hlt] at hcount
        rw [if_neg (by omega)]
        omega
  · rw [hdropped, hcancelled]
    exact h.cancelled
  · rw [hanswered, hqueued, hpumped, hqueue]
    exact h.ordered
  · rw [hanswers]
    exact h.right
  · rw [hpumped, hqueue, hqueued]
    exact h.queued
  · rw [hinlined, hqueued]
    intro f hf hmem
    -- A fresh number is no queued one.
    rcases List.mem_cons.mp hf with rfl | hf
    · exact absurd (h.bounded _ hmem) (Nat.lt_irrefl _)
    · exact h.inlined f hf hmem
  · rw [hqueued, hmade]
    exact fun f hf => Nat.lt_succ_of_lt (h.bounded f hf)
  · rw [hclosed, hqueue]
    exact h.closed

/-- A running submission is answered. The queued one is the first of those that are
    not answered yet. -/
theorem orderly_answer {t : Submissions} (h : s.Orderly) (hmade : t.made = s.made)
    (hqueue : t.queue = s.queue) (hqueued : t.queued = s.queued)
    (hleft : t.pumped = [] ∧ s.pumped = [g] ∧ t.inlined = s.inlined ∨
      t.pumped = s.pumped ∧ s.inlined = g :: t.inlined)
    (hanswers : t.answers = s.answers ++ [⟨g, some ended, o⟩])
    (ho : outcomeOf room ended = some o) (hdropped : t.dropped = s.dropped)
    (hcancelled : t.cancelled = s.cancelled) (hquiet : t.surfaced = s.surfaced)
    (hclosed : t.closed = s.closed) : t.Orderly := by
  have hanswered : t.answered = s.answered ++ [g] := by
    rw [answered, hanswers, List.map_append]
    rfl
  refine ⟨hquiet.trans h.quiet, fun f => ?_, ?_, ?_, ?_, ?_, ?_, ?_, ?_⟩
  · -- it moves from where it ran to the answers
    have hcount := h.count f
    rw [hqueue, hanswered, hdropped, hmade, List.count_append, List.count_singleton]
    rcases hleft with ⟨hnone, hone, hsame⟩ | ⟨hsame, hcons⟩
    · rw [hone, List.count_singleton] at hcount
      rw [hnone, hsame, List.count_nil]
      omega
    · rw [hcons, List.count_cons] at hcount
      rw [hsame]
      omega
  · rw [hdropped, hcancelled]
    exact h.cancelled
  · -- an inline one is no queued one, so its answer does not count in the order
    have hordered := h.ordered
    rw [hanswered, hqueued, hqueue, List.filter_append]
    rcases hleft with ⟨hnone, hone, -⟩ | ⟨hsame, hcons⟩
    · have hg : g ∈ s.queued := h.queued g (by rw [hone]; exact List.mem_cons_self)
      rw [hone] at hordered
      rw [hnone, List.append_nil, List.filter_cons_of_pos (by simpa using hg), List.filter_nil]
      exact hordered
    · have hg : g ∉ s.queued := h.inlined g (by rw [hcons]; exact List.mem_cons_self)
      rw [hsame, List.filter_cons_of_neg (by simpa using hg), List.filter_nil, List.append_nil]
      exact hordered
  · rw [hanswers]
    intro a ha
    rcases List.mem_append.mp ha with ha | ha
    · exact h.right a ha
    · rw [List.mem_singleton.mp ha]
      exact outcomeOf_right ho
  · rw [hqueue, hqueued]
    intro f hf
    refine h.queued f ?_
    -- What waits is queued, whichever of the two it was.
    rcases hleft with ⟨hnone, -, -⟩ | ⟨hsame, -⟩
    · rw [hnone] at hf
      exact List.mem_append_right _ hf
    · rwa [hsame] at hf
  · rw [hqueued]
    intro f hf
    refine h.inlined f ?_
    rcases hleft with ⟨-, -, hsame⟩ | ⟨-, hcons⟩
    · rwa [hsame] at hf
    · rw [hcons]
      exact List.mem_cons_of_mem _ hf
  · rw [hqueued, hmade]
    exact h.bounded
  · rw [hclosed, hqueue]
    exact h.closed

/-- What a closing store does with its queue. -/
theorem foldl_failClosed (fs : List Nat) : ∀ s : Submissions, fs.foldl failClosed s = { s with
    answers := s.answers ++
      (fs.filter (· ∉ s.cancelled)).map fun f => ⟨f, none, Outcome.storeClosed⟩
    dropped := (fs.filter (· ∈ s.cancelled)).reverse ++ s.dropped } := by
  induction fs with
  | nil => simp
  | cons f fs ih =>
      intro s
      rw [List.foldl_cons, ih]
      unfold failClosed
      by_cases hf : f ∈ s.cancelled
      · simp [hf]
      · simp [hf, answer]

theorem count_filter_cancelled (s : Submissions) (fs : List Nat) (f : Nat) :
    (fs.filter (· ∉ s.cancelled)).count f + (fs.filter (· ∈ s.cancelled)).count f = fs.count f := by
  by_cases hf : f ∈ s.cancelled
  · have hnone : (fs.filter (· ∉ s.cancelled)).count f = 0 :=
      List.count_eq_zero_of_not_mem fun hmem => by simpa [hf] using (List.mem_filter.mp hmem).2
    rw [hnone, List.count_filter (by simpa using hf), Nat.zero_add]
  · have hnone : (fs.filter (· ∈ s.cancelled)).count f = 0 :=
      List.count_eq_zero_of_not_mem fun hmem => by simpa [hf] using (List.mem_filter.mp hmem).2
    rw [hnone, List.count_filter (by simpa using hf), Nat.add_zero]

theorem orderly_close (h : s.Orderly)
    (hfits : s.pumped = [] ∨ ∀ f ∈ s.queue, f ∈ s.cancelled) :
    Orderly (s.queue.foldl failClosed { s with closed := true, queue := [] }) := by
  rw [foldl_failClosed]
  -- The futures that were not cancelled are answered in the order of the queue.
  have hids : ∀ fs : List Nat, (s.answers ++ fs.map fun f => (⟨f, none, Outcome.storeClosed⟩ : Answer)).map
      Answer.future = s.answered ++ fs := by
    intro fs
    rw [List.map_append, List.map_map]
    exact congrArg (s.answered ++ ·) (List.map_id' fs)
  refine ⟨h.quiet, fun f => ?_, ?_, ?_, ?_, ?_, h.inlined, h.bounded, fun _ => rfl⟩
  · have hcount := h.count f
    have hsplit := count_filter_cancelled s s.queue f
    show ([] : List Nat).count f + s.pumped.count f + s.inlined.count f +
      List.count f (List.map Answer.future _) + List.count f _ = _
    rw [hids, List.count_append, List.count_append, List.count_reverse, List.count_nil]
    dsimp only
    omega
  · intro f hf
    rcases List.mem_append.mp hf with hf | hf
    · simpa using (List.mem_filter.mp (List.mem_reverse.mp hf)).2
    · exact h.cancelled f hf
  · show (List.filter _ (List.map Answer.future _) ++ s.pumped ++ []).Pairwise _
    have hqueued : ∀ f ∈ s.queue.filter (· ∉ s.cancelled), decide (f ∈ s.queued) = true :=
      fun f hf => by simpa using h.queued f (List.mem_append_right _ (List.mem_of_mem_filter hf))
    have hordered := h.ordered
    rw [hids, List.filter_append, List.filter_eq_self.mpr hqueued, List.append_nil]
    -- A closure that closes the store itself is answered after these, so there are none.
    rcases hfits with hnone | hall
    · rw [hnone, List.append_nil] at hordered ⊢
      exact hordered.sublist (List.Sublist.append_left List.filter_sublist _)
    · have hempty : s.queue.filter (· ∉ s.cancelled) = [] := by
        refine List.filter_eq_nil_iff.mpr fun f hf => ?_
        simpa using hall f hf
      rw [hempty, List.append_nil]
      exact hordered.sublist (List.sublist_append_left _ _)
  · intro a ha
    rcases List.mem_append.mp ha with ha | ha
    · exact h.right a ha
    · rcases List.mem_map.mp ha with ⟨f, -, rfl⟩
      exact rfl
  · intro f hf
    refine h.queued f ?_
    rw [List.append_nil] at hf
    exact List.mem_append_left _ hf

/-- The pump takes the next closure: it is dropped, or runs. -/
theorem orderly_take {rest : List Nat} (h : s.Orderly) (hpump : s.pump = .taking)
    (hqueue : s.queue = f :: rest) : (s.step .take).Orderly := by
  have hpumped : s.pumped = [] := by rw [pumped, hpump]
  have hinlined : s.inlined = s.inline := by rw [inlined, hpump]
  have hcount := h.count
  have hordered := h.ordered
  have hqueued := h.queued
  have hin := h.inlined
  have hclosed := h.closed
  rw [hpumped, List.append_nil, hqueue] at hordered
  rw [hpumped, List.nil_append, hqueue] at hqueued
  rw [hinlined] at hin
  simp only [step, hpump, hqueue]
  -- A cancelled future is dropped, and its closure never runs.
  by_cases hf : f ∈ s.cancelled
  · rw [if_pos hf]
    refine ⟨h.quiet, fun g => ?_, ?_, ?_, h.right, ?_, ?_, h.bounded, ?_⟩
    · have hg := hcount g
      rw [hpumped, hinlined, hqueue, List.count_cons] at hg
      simp only [pumped, inlined, List.count_nil, List.count_cons]
      show _ + _ + s.answered.count g + _ = _
      rw [List.count_nil] at hg
      omega
    · intro g hg
      rcases List.mem_cons.mp hg with rfl | hg
      · exact hf
      · exact h.cancelled g hg
    · simp only [pumped, List.append_nil]
      exact hordered.sublist (List.Sublist.append_left (List.sublist_cons_self f rest) _)
    · simp only [pumped, List.nil_append]
      exact fun g hg => hqueued g (List.mem_cons_of_mem _ hg)
    · simp only [inlined]
      exact hin
    · intro hc
      have := hclosed hc
      rw [hqueue] at this
      cases this
  · rw [if_neg hf]
    refine ⟨h.quiet, fun g => ?_, h.cancelled, ?_, h.right, ?_, ?_, h.bounded, ?_⟩
    · have hg := hcount g
      rw [hpumped, hinlined, hqueue, List.count_cons] at hg
      simp only [pumped, inlined, List.nil_append, List.count_singleton]
      show _ + _ + _ + s.answered.count g + _ = _
      rw [List.count_nil] at hg
      omega
    · simp only [pumped, List.append_assoc, List.singleton_append]
      exact hordered
    · simp only [pumped, List.singleton_append]
      exact hqueued
    · simp only [inlined, List.nil_append]
      exact hin
    · intro hc
      have := hclosed hc
      rw [hqueue] at this
      cases this

/-- The end of a submission whose result fits answers its future. -/
theorem conclude_of_room (hroom : Room room ended) (f : Nat) :
    ∃ o, outcomeOf room ended = some o ∧ ∀ t : Submissions,
      t.conclude f room ended = t.answer f (some ended) o := by
  rcases Option.isSome_iff_exists.mp ((outcomeOf_isSome_iff room ended).mpr hroom) with ⟨o, ho⟩
  refine ⟨o, ho, fun t => ?_⟩
  unfold conclude
  rw [ho]

theorem orderly_finish (h : s.Orderly) (hroom : Room room ended) :
    (s.step (.finish room ended)).Orderly := by
  cases hpump : s.pump with
  | taking => simpa only [step, hpump] using h
  | idle =>
      cases hinline : s.inline with
      | nil => simpa only [step, hpump, hinline] using h
      | cons g rest =>
          rcases conclude_of_room hroom g with ⟨o, ho, hconclude⟩
          simp only [step, hpump, hinline, hconclude]
          refine orderly_answer h rfl rfl rfl (Or.inr ⟨?_, ?_⟩) rfl ho rfl rfl rfl rfl
          · simp only [pumped, answer, hpump]
          · simp only [inlined, answer, hpump, hinline]
  | running f inner =>
      cases inner with
      | nil =>
          rcases conclude_of_room hroom f with ⟨o, ho, hconclude⟩
          simp only [step, hpump, hconclude, ho]
          refine orderly_answer h rfl rfl rfl (Or.inl ⟨?_, ?_, ?_⟩) rfl ho rfl rfl rfl rfl
          · simp only [pumped, answer, Option.isSome_some, if_true]
          · simp only [pumped, hpump]
          · simp only [inlined, answer, hpump, Option.isSome_some, if_true, List.nil_append]
      | cons g inner =>
          rcases conclude_of_room hroom g with ⟨o, ho, hconclude⟩
          simp only [step, hpump, hconclude]
          refine orderly_answer h rfl rfl rfl (Or.inr ⟨?_, ?_⟩) rfl ho rfl rfl rfl rfl
          · simp only [pumped, answer, hpump]
          · simp only [inlined, answer, hpump, List.cons_append]

/-- Every event that fits keeps the invariant. -/
theorem orderly_step (h : s.Orderly) {e : SubmitEvent} (he : s.Fits e) : (s.step e).Orderly := by
  cases e with
  | submit =>
      by_cases hclosed : s.closed = true
      · simpa only [step, if_pos hclosed] using h
      · simp only [step, if_neg hclosed]
        exact { h with }
  | append =>
      by_cases hnone : s.checked = 0
      · simpa only [step, if_pos hnone] using h
      · simp only [step, if_neg hnone]
        exact orderly_append h (he.resolve_left hnone)
  | submitInline =>
      by_cases hclosed : s.closed = true
      · simpa only [step, if_pos hclosed] using h
      · simp only [step, if_neg hclosed]
        cases hpump : s.pump with
        | taking => exact h
        | idle =>
            refine orderly_inline h rfl rfl rfl ?_ ?_ rfl rfl rfl rfl rfl
            · simp only [pumped, hpump]
            · simp only [inlined, hpump]
        | running f inner =>
            refine orderly_inline h rfl rfl rfl ?_ ?_ rfl rfl rfl rfl rfl
            · simp only [pumped, hpump]
            · simp only [inlined, hpump, List.cons_append]
  | cancel f =>
      by_cases hf : f ∈ s.queue
      · simp only [step, if_pos hf]
        exact { h with cancelled := fun g hg => List.mem_cons_of_mem _ (h.cancelled g hg) }
      · simpa only [step, if_neg hf] using h
  | enter =>
      cases hpump : s.pump with
      | taking => simpa only [step, hpump] using h
      | running f inner => simpa only [step, hpump] using h
      | idle =>
          by_cases hwait : (s.closed || s.queue.isEmpty) = true
          · simpa only [step, hpump, if_pos hwait] using h
          · -- entering the loop moves nothing yet
            simp only [step, hpump, if_neg hwait]
            have hpumped : s.pumped = [] := by rw [pumped, hpump]
            have hinlined : s.inlined = s.inline := by rw [inlined, hpump]
            refine { h with count := ?_, ordered := ?_, queued := ?_, inlined := ?_ }
            · have hcount := h.count
              rwa [hpumped, hinlined] at hcount
            · have hordered := h.ordered
              rwa [hpumped] at hordered
            · have hqueued := h.queued
              rwa [hpumped] at hqueued
            · have hin := h.inlined
              rwa [hinlined] at hin
  | take =>
      cases hpump : s.pump with
      | idle => simpa only [step, hpump] using h
      | running f inner => simpa only [step, hpump] using h
      | taking =>
          cases hqueue : s.queue with
          | cons f rest => exact orderly_take h hpump hqueue
          | nil =>
              -- The pump returns, and what an idle pump leaves to inline calls is none.
              simp only [step, hpump, hqueue]
              have hpumped : s.pumped = [] := by rw [pumped, hpump]
              have hinlined : s.inlined = s.inline := by rw [inlined, hpump]
              have hcount := h.count
              have hordered := h.ordered
              have hin := h.inlined
              rw [hpumped, hinlined, hqueue] at hcount
              rw [hpumped, hqueue] at hordered
              rw [hinlined] at hin
              have hnone : ∀ f ∈ ([] : List Nat) ++ [], f ∈ s.queued := fun f hf => by cases hf
              exact ⟨h.quiet, hcount, h.cancelled, hordered, h.right, hnone, hin, h.bounded,
                fun _ => rfl⟩
  | finish room ended => exact orderly_finish h he
  | close =>
      by_cases hclosed : s.closed = true
      · simpa only [step, if_pos hclosed] using h
      · simp only [step, if_neg hclosed]
        exact orderly_close h he

/-- The end of a submission leaves a pump that runs in its loop. -/
theorem finish_busy (hroom : Room room ended) (hbusy : s.pump ≠ .idle) :
    (s.step (.finish room ended)).pump ≠ .idle := by
  cases hpump : s.pump with
  | idle => exact absurd hpump hbusy
  | taking =>
      simp only [step, hpump]
      exact Pump.noConfusion
  | running f inner =>
      cases inner with
      | nil =>
          rcases conclude_of_room hroom f with ⟨o, ho, hconclude⟩
          simp [step, hpump, hconclude, ho, answer]
      | cons g inner =>
          rcases conclude_of_room hroom g with ⟨o, ho, hconclude⟩
          simp [step, hpump, hconclude, answer]

/-- A pump that has a queued submission takes it. -/
theorem take_busy (hbusy : s.pump ≠ .idle) (hwork : s.pump ≠ .taking ∨ s.queue ≠ []) :
    (s.step .take).pump ≠ .idle := by
  cases hpump : s.pump with
  | idle => exact absurd hpump hbusy
  | running f inner =>
      simp only [step, hpump]
      exact Pump.noConfusion
  | taking =>
      cases hqueue : s.queue with
      | nil => exact absurd hqueue (hwork.resolve_left fun hne => hne hpump)
      | cons f rest =>
          simp only [step, hpump, hqueue]
          split
          · simp
          · simp

/-- Only an empty queue and a close end a pump that runs. -/
theorem idle_after (he : s.Fits e) (hbusy : s.pump ≠ .idle) (hidle : (s.step e).pump = .idle) :
    e = .take ∧ s.pump = .taking ∧ s.queue = [] ∨ e = .close := by
  -- What other threads do to the queue leaves the pump where it is.
  have hsame : ∀ {e'}, e = e' → (s.step e').pump = s.pump → False := fun heq hkept =>
    hbusy (hkept.symm.trans (heq ▸ hidle))
  cases e with
  | take =>
      by_contra hnot
      refine take_busy hbusy ?_ hidle
      by_contra hwork
      rw [not_or, not_not, not_not] at hwork
      exact hnot (Or.inl ⟨rfl, hwork⟩)
  | finish room ended => exact absurd hidle (finish_busy he hbusy)
  | submit =>
      refine (hsame rfl ?_).elim
      simp only [step]
      split <;> rfl
  | append =>
      refine (hsame rfl ?_).elim
      simp only [step]
      split <;> rfl
  | cancel f =>
      refine (hsame rfl ?_).elim
      simp only [step]
      split <;> rfl
  | submitInline =>
      -- A submission made inside another one is pushed on top of it.
      refine absurd hidle ?_
      simp only [step]
      split
      · exact hbusy
      · split
        · rename_i hpump
          exact absurd hpump hbusy
        · exact hbusy
        · simp
  | enter =>
      refine (hsame rfl ?_).elim
      cases hpump : s.pump with
      | idle => exact absurd hpump hbusy
      | taking => simp only [step, hpump]
      | running f inner => simp only [step, hpump]
  | close => exact Or.inr rfl

/-- The pump returns only from an empty queue, and a close leaves none. -/
theorem Orderly.drains (h : s.Orderly) {e : SubmitEvent} (he : s.Fits e) : s.Drains e := by
  have hclose : (s.step .close).queue = [] := by
    by_cases hclosed : s.closed = true
    · simpa only [step, if_pos hclosed] using h.closed hclosed
    · simp only [step, if_neg hclosed, foldl_failClosed]
  rintro (⟨hbusy, hidle⟩ | rfl)
  · rcases idle_after he hbusy hidle with ⟨rfl, htaking, hempty⟩ | rfl
    · simp only [step, htaking, hempty]
    · exact hclose
  · exact hclose

end Steps

section Runs

/-- In every run that fits, every queued submission is answered once, in the order of
    the queue and rightly, and nothing reaches the caller of the pump. -/
theorem submissions_answered (es : List SubmitEvent) (hes : EachStep step Fits {} es) :
    EachStep step (fun s e => (s.step e).AllAnswered ∧ s.Drains e) {} es :=
  eachStep_imp (I := Orderly) (P := Fits) (fun _ _ h he => orderly_step h he)
    (fun _ _ h he => ⟨(orderly_step h he).allAnswered, h.drains he⟩) es {} orderly_start hes

/-- Without room for the scan, a queued submission is never answered, and the
    exception leaves the pump with the queue as it was. -/
theorem finish_without_room {s : Submissions} {f room : Nat} {ended : Except String Returned}
    (hpump : s.pump = .running f []) (hroom : ¬Room room ended) :
    s.step (.finish room ended) = { s with
      pump := .idle, abandoned := f :: s.abandoned, surfaced := s.surfaced + 1 } := by
  have hnone : outcomeOf room ended = none := by
    rw [← Option.not_isSome_iff_eq_none, outcomeOf_isSome_iff]
    exact hroom
  simp only [step, hpump, conclude, hnone]
  rfl

/-- A closure appended to a store that has closed is never answered: whatever comes
    after, it waits, or was cancelled and waits all the same. -/
theorem append_closed {s : Submissions} {f : Nat} (hclosed : s.closed = true)
    (hidle : s.pump = .idle) (hf : f ∈ s.queue) (e : SubmitEvent) :
    (s.step e).closed = true ∧ (s.step e).pump = .idle ∧ f ∈ (s.step e).queue := by
  cases e with
  | append =>
      simp only [step]
      split
      · exact ⟨hclosed, hidle, hf⟩
      · exact ⟨hclosed, hidle, List.mem_append_left _ hf⟩
  | cancel g =>
      simp only [step]
      split <;> exact ⟨hclosed, hidle, hf⟩
  | finish room ended =>
      -- Only what the owner submitted itself can still end.
      cases hinline : s.inline with
      | nil =>
          simp only [step, hidle, hinline]
          exact ⟨hclosed, trivial, hf⟩
      | cons g rest =>
          simp only [step, hidle, hinline, conclude]
          split <;> exact ⟨hclosed, rfl, hf⟩
  | _ => simp [step, hclosed, hidle, hf]

/-- An object that refers to nothing. -/
def plainResult : Returned := ⟨fun _ => .plain, 0⟩

/-- A list with an entity in it. -/
def entityListed : Returned := ⟨fun v => if v = 0 then .items [1] else .entity "note", 0⟩

theorem entityListed_scannable : Room 900 (.ok entityListed) :=
  ⟨scannable_of_parts rfl, Or.inr trivial⟩

/-- Two closures are queued; the first submits a third one and returns a list with an
    entity in it, and the second raises. -/
theorem two_submissions_answered :
    EachStep step (fun s e => (s.step e).AllAnswered ∧ s.Drains e) {}
      [.submit, .submit, .append, .append, .enter, .take, .submitInline,
        .finish 900 (.ok plainResult), .finish 900 (.ok entityListed), .take,
        .finish 900 (.error "ValueError"), .take, .close] :=
  submissions_answered _ ⟨trivial, trivial, Or.inr rfl, Or.inr rfl, trivial, trivial, trivial,
    scannable_of_parts rfl, entityListed_scannable, trivial, trivial, trivial, Or.inl rfl, trivial⟩

/-- A list that holds itself. -/
def selfHolding : Returned := ⟨fun _ => .items [0], 0⟩

/-- There is no room for the scan of a list that holds itself and nothing else. -/
theorem findEscapee_selfHolding (room : Nat) :
    findEscapee selfHolding.cells room selfHolding.root = none := by
  induction room with
  | zero => rfl
  | succ room ih =>
      have hscan : findEscapee selfHolding.cells room 0 = none := ih
      show firstFound (findEscapee selfHolding.cells room) [0] = none
      rw [firstFound, hscan]

/-- The first of two queued closures returns a list that holds itself: its future is
    not answered, the caller of the pump gets the exception, and the second closure
    stays in the queue. -/
theorem self_holding_result_unanswered :
    ¬EachStep step (fun s e => (s.step e).AllAnswered ∧ s.Drains e) {}
      [.submit, .append, .submit, .append, .enter, .take, .finish 900 (.ok selfHolding)] := by
  rintro ⟨-, -, -, -, -, -, ⟨hall, -⟩, -⟩
  have hquiet := hall.quiet
  have hnone : outcomeOf 900 (.ok selfHolding) = none := by
    rw [outcomeOf, findEscapee_selfHolding]
    rfl
  simp [step, conclude, hnone] at hquiet

end Runs

end Submissions

end DataCrystal
