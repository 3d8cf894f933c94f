import Mathlib.Algebra.Order.Ring.Rat
import DataCrystal.Lib.Dict
import DataCrystal.Lib.Run

/-!
# The Lease Lock

A store directory is opened by one writer at a time. The writer's mark is a lock
file that names it and the time, and that it writes anew every third of the time
to live. An opener that finds a lock file refuses if the file is fresh and its
process runs, and takes the file away and tries again if not.

Nothing locks the lock file itself: an opener creates it exclusively and writes it
afterwards, it reads it and unlinks the path afterwards, and a refresher writes a
file beside it and moves that over the path afterwards. All refreshers use one
name for the file beside it. Between two such steps anybody else may take a step,
so every step is a step of the model, and the threads of an opener are two
positions in the source text.

An unlinked file stays open for who created it, so files are numbered and the lock
path names one of them or none. A read sees the JSON object of the payload with the
fields that have the right type, or nothing when the text is no object.

## Main definitions

* `Holder`: What a lock file says.
* `Phase`, `Refresher`: Where the two threads of an opener stand.
* `Lease`: The directory, the clock, the processes and the openers.
* `staleReason`: Why a lock file counts as stale.
* `Lease.step`: One step of one thread, of the clock or of a dying process.
-/

namespace DataCrystal

/-- What a lock file says. A field is missing, or of a wrong type, or read. -/
structure Holder where
  pid : Option ℤ
  token : Option Nat
  ts : Option ℚ
  host : Option String
  deriving DecidableEq

/-- What a read of a lock file gives: nothing for a missing file, for an empty one
    and for one that is no JSON object. -/
abbrev Content := Option Holder

/-- Where the thread that acquires and releases stands. -/
inductive Phase
  | idle
  | creating
  /-- The file is created and its payload is not written. -/
  | writing (file : Nat)
  | reading
  | judging (found : Content)
  | unlinking (found : Content)
  /-- `acquire` raised. -/
  | refused
  /-- `acquire` returned. -/
  | held
  | joining (since : ℚ)
  | checking
  | removing
  | released
  deriving DecidableEq

/-- Where the refresher thread stands. -/
inductive Refresher
  | off
  | waiting (since : ℚ)
  | reading
  | writing
  /-- The file beside the lock is written, with the time in it. -/
  | replacing (stamp : ℚ)
  | done
  deriving DecidableEq

/-- One lock object. Its token is unique, so it is known by its number. -/
structure Opener where
  phase : Phase := .idle
  refresher : Refresher := .off
  stop : Bool := false
  lost : Bool := false
  /-- The time its refresher, or its `acquire`, last put in place. Nothing reads
      it. -/
  refreshed : ℚ := 0
  deriving DecidableEq

/-- What does not change in a run: the time to live, the process of each opener and
    where the processes run. -/
structure Site where
  ttl : ℚ
  process : Nat → Nat
  host : Nat → String
  pid : Nat → ℤ

/-- The directory, the clock, the running processes and the openers. -/
structure Lease where
  clock : ℚ
  path : Option Nat := none
  files : Dict Nat Content := Dict.empty
  /-- The number of the next file. -/
  fresh : Nat := 0
  temp : Option Content := none
  live : List Nat
  openers : Dict Nat Opener := Dict.empty

inductive LeaseEvent
  | tick (now : ℚ)
  | crash (process : Nat)
  | acquire (o : Nat)
  | release (o : Nat)
  /-- The next step of `acquire` or of `release`. -/
  | main (o : Nat)
  /-- The next step of the refresher; writing and replacing may fail. -/
  | refresh (o : Nat) (fault : Bool)
  deriving DecidableEq

/-- Why a lock file counts as stale. -/
inductive Reason
  | unreadable
  | ttlExpired
  | holderProcessGone
  deriving DecidableEq

namespace Site

/-- The payload an opener writes. -/
def payload (site : Site) (o : Nat) (now : ℚ) : Holder where
  pid := some (site.pid (site.process o))
  token := some o
  ts := some now
  host := some (site.host (site.process o))

/-- No running process of a host has the pid. -/
def noProcess (site : Site) (live : List Nat) (host : String) (pid : ℤ) : Bool :=
  live.all fun p => !(site.host p = host && site.pid p = pid)

/-- The holder ran on the opener's host and runs no more. -/
def holderPidIsDead (site : Site) (live : List Nat) (o : Nat) (h : Holder) : Bool :=
  h.host = some (site.host (site.process o)) &&
    match h.pid with
    | none => false
    | some pid =>
      !(pid ≤ 0 || pid = site.pid (site.process o)) &&
        site.noProcess live (site.host (site.process o)) pid

/-- Why a lock file is stale, or nothing while its holder is alive. -/
def staleReason (site : Site) (live : List Nat) (now : ℚ) (o : Nat) (h : Holder) : Option Reason :=
  match h.ts with
  | none => some .unreadable
  | some ts =>
    if site.ttl * 2 < now - ts then some .ttlExpired
    else if site.holderPidIsDead live o h then some .holderProcessGone
    else none

end Site

namespace Lease

/-- The state of an opener; one that did nothing yet has no entry. -/
def opener (s : Lease) (o : Nat) : Opener := s.openers.getD o {}

def put (o : Nat) (x : Opener) (s : Lease) : Lease := { s with openers := s.openers.set o x }

def goto (o : Nat) (phase : Phase) (s : Lease) : Lease :=
  s.put o { s.opener o with phase := phase }

def send (o : Nat) (r : Refresher) (s : Lease) : Lease :=
  s.put o { s.opener o with refresher := r }

def alive (site : Site) (s : Lease) (o : Nat) : Bool := s.live.contains (site.process o)

/-- Read the file at the lock path. -/
def read (s : Lease) : Content := s.path.bind fun n => (s.files.get? n).join

/-- Put a file with a new number at the lock path. -/
def place (c : Content) (s : Lease) : Lease :=
  { s with path := some s.fresh, files := s.files.set s.fresh c, fresh := s.fresh + 1 }

def unlink (s : Lease) : Lease := { s with path := none }

/-- Another opener's token, as the refresher looks for it. -/
def foreign (o : Nat) : Content → Bool
  | none => false
  | some h => match h.token with
    | none => false
    | some t => t ≠ o

/-- One step of `acquire` or of `release`. -/
def main (site : Site) (s : Lease) (o : Nat) : Lease :=
  match (s.opener o).phase with
  | .creating =>
    match s.path with
    | none => (s.place none).goto o (.writing s.fresh)
    | some _ => s.goto o .reading
  | .writing file =>
    -- The file is open, so the payload goes to it wherever the path leads by now.
    { s with files := s.files.set file (some (site.payload o s.clock)) }.put o
      { s.opener o with phase := .held, refresher := .waiting s.clock, refreshed := s.clock }
  | .reading => s.goto o (.judging s.read)
  | .judging found =>
    match found with
    | none => s.goto o (.unlinking found)
    | some h =>
      match site.staleReason s.live s.clock o h with
      | none => s.goto o .refused
      | some _ => s.goto o (.unlinking found)
  | .unlinking _ => s.unlink.goto o .creating
  | .joining since =>
    if (s.opener o).refresher = .off ∨ (s.opener o).refresher = .done ∨ since + site.ttl ≤ s.clock
    then
      if (s.opener o).lost then s.goto o .released else s.goto o .checking
    else s
  | .checking =>
    match s.read with
    | some h => if h.token = some o then s.goto o .removing else s.goto o .released
    | none => s.goto o .released
  | .removing => s.unlink.goto o .released
  | _ => s

/-- One step of the refresher. -/
def refresh (site : Site) (s : Lease) (o : Nat) (fault : Bool) : Lease :=
  match (s.opener o).refresher with
  | .waiting since =>
    -- The event is set before the wait is over.
    if (s.opener o).stop then s.send o .done
    else if since + site.ttl / 3 ≤ s.clock then s.send o .reading
    else s
  | .reading =>
    -- Someone took over during a pause: nothing is written again.
    if foreign o s.read then s.put o { s.opener o with refresher := .done, lost := true }
    else s.send o .writing
  | .writing =>
    -- A failed write is passed over until the next round.
    if fault then s.send o (.waiting s.clock)
    else
      { s with temp := some (some (site.payload o s.clock)) }.send o (.replacing s.clock)
  | .replacing stamp =>
    if fault then s.send o (.waiting s.clock)
    else
      match s.temp with
      -- The temporary file is gone, which is a failed replace.
      | none => s.send o (.waiting s.clock)
      | some c =>
        { s.place c with temp := none }.put o
          { s.opener o with refresher := .waiting s.clock, refreshed := stamp }
  | _ => s

/-- One step of the system. A dead process takes none. -/
def step (site : Site) (s : Lease) : LeaseEvent → Lease
  -- The clock does not run backwards.
  | .tick now => { s with clock := max s.clock now }
  | .crash p => { s with live := s.live.filter fun q => q ≠ p }
  | .acquire o =>
    if s.alive site o then
      -- An opener that holds the lease, or is about to, acquires nothing.
      match (s.opener o).phase with
      | .idle => s.goto o .creating
      | .refused => s.goto o .creating
      | _ => s
    else s
  | .release o =>
    if s.alive site o then
      match (s.opener o).phase with
      -- A release may come before any acquire, too.
      | .idle => s.put o { s.opener o with phase := .joining s.clock, stop := true }
      | .refused => s.put o { s.opener o with phase := .joining s.clock, stop := true }
      | .held => s.put o { s.opener o with phase := .joining s.clock, stop := true }
      | _ => s
    else s
  | .main o => if s.alive site o then s.main site o else s
  | .refresh o fault => if s.alive site o then s.refresh site o fault else s

/-- A directory that nobody opened yet, with any lock file and any file beside it. -/
def start (now : ℚ) (live : List Nat) (lock temp : Option Content) : Lease where
  clock := now
  -- Files are told apart by number, so that one that replaces another is a new one.
  path := lock.map fun _ => 0
  files := match lock with
    | none => Dict.empty
    | some c => Dict.empty.set 0 c
  fresh := 1
  temp := temp
  live := live

/-- A run from a state. -/
def run (site : Site) (s : Lease) (es : List LeaseEvent) : Lease := es.foldl (step site) s

end Lease

end DataCrystal
