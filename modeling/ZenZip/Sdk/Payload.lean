import ZenZip.Ledger.Journal
import ZenZip.Lib.PosixPath

namespace ZenZip

open Lib
open Lib.PosixPath (Path)

/-- The directory of the store as it was given, the directory that the process runs in,
and the files of the machine by their absolute paths. A file holds the JSON text of one
step result. -/
structure FilesystemBlobStore where
  cwd : Path
  dir : Path
  files : Path → Option Json

namespace FilesystemBlobStore

def allowed (c : Char) : Bool := c.isAlphanum || c = '_' || c = '/' || c = '-'

/-- The expression has no `u` flag, so a character outside the basic plane is replaced
twice. -/
def refOf (key : List Char) : String :=
  String.ofList (key.flatMap (fun c =>
    if allowed c then [c] else if c.toNat < 65536 then ['_'] else ['_', '_']) ++
      ['.', 'j', 's', 'o', 'n'])

/-- The file at `path.join(dir, ref)`. The names of the directory count as those of the
reference do, and a path that ends in a slash is of no file. -/
def fileAt (cwd dir : Path) (ref : String) : Option Path :=
  let path := PosixPath.join [dir, ref.toList]
  if path.getLast? = some '/' then none else some (PosixPath.resolve cwd path)

/-- A reference may name the directory itself. -/
example : fileAt ['/', 'z'] ['b', 'l', 'o', 'b', 's'] "../blobs/r/a.json" =
    fileAt ['/', 'z'] ['b', 'l', 'o', 'b', 's'] "r/a.json" := by decide +kernel

def file (b : FilesystemBlobStore) (ref : String) : Option Path := fileAt b.cwd b.dir ref

def put (b : FilesystemBlobStore) (key : List Char) (data : Json) : FilesystemBlobStore × String :=
  let ref := refOf key
  ({ b with files := fun path => if b.file ref = some path then some data else b.files path }, ref)

def get? (b : FilesystemBlobStore) (ref : String) : Option Json := (b.file ref).bind b.files

theorem refOf_ends (key : List Char) : ∃ names last,
    (refOf key).toList.splitOn '/' = names ++ [last ++ ['.', 'j', 's', 'o', 'n']] ∧
      PosixPath.Proper (last ++ ['.', 'j', 's', 'o', 'n']) := by
  obtain ⟨names, last, hsplit⟩ :=
    Text.splitOn_append_piece (s := '/') (y := ['.', 'j', 's', 'o', 'n'])
    (x := key.flatMap
      (fun c => if allowed c then [c] else if c.toNat < 65536 then ['_'] else ['_', '_']))
        (by decide)
  have hends : (refOf key).toList.splitOn '/' = names ++ [last ++ ['.', 'j', 's', 'o', 'n']] := by
    rw [refOf, String.toList_ofList, hsplit]
  have hslash : '/' ∉ last ++ ['.', 'j', 's', 'o', 'n'] :=
    Text.not_mem_of_mem_splitOn (y := (refOf key).toList)
      (by rw [hends]; exact List.mem_append_right names List.mem_cons_self)
  have hlength : 5 ≤ (last ++ ['.', 'j', 's', 'o', 'n']).length := by simp
  refine ⟨names, last, hends, ?_, hslash, ?_, ?_⟩ <;>
    exact fun he => absurd (he ▸ hlength) (by decide)

theorem fileAt_refOf (cwd dir : Path) (key : List Char) :
    fileAt cwd dir (refOf key) = some
      (PosixPath.resolve cwd (PosixPath.join [dir, (refOf key).toList])) := by
  obtain ⟨names, last, hends, hproper⟩ := refOf_ends key
  have hlast : (PosixPath.join [dir, (refOf key).toList]).getLast? = some 'n' := by
    rw [PosixPath.getLast_join dir hends hproper,
      List.getLast?_append_of_ne_nil _ (List.cons_ne_nil _ _)]
    rfl
  rw [fileAt, hlast]
  exact if_neg (by decide)

theorem get?_put (b : FilesystemBlobStore) (key : List Char) (data : Json) (ref : String) :
    (b.put key data).1.get? ref =
      if b.file ref = b.file (refOf key) then some data else b.get? ref := by
  have hkey : b.file (refOf key) =
    some (PosixPath.resolve b.cwd (PosixPath.join [b.dir, (refOf key).toList])) :=
    fileAt_refOf b.cwd b.dir key
  show (b.file ref).bind
    (fun path => if b.file (refOf key) = some path then some data else b.files path) = _
  rw [hkey]
  cases href : b.file ref with
  | none =>
      rw [if_neg (by simp), get?, href, Option.bind_none, Option.bind_none]
  | some path =>
      rw [Option.bind_some, get?, href, Option.bind_some]
      by_cases hp : path = PosixPath.resolve b.cwd (PosixPath.join [b.dir, (refOf key).toList])
      · rw [if_pos (congrArg some hp.symm), if_pos (congrArg some hp)]
      · rw [if_neg (fun he => hp (Option.some.inj he).symm),
          if_neg (fun he => hp (Option.some.inj he))]

end FilesystemBlobStore

/-- `createPayloadCodec`. `byteLength` is the length of a text in UTF-8. -/
structure PayloadCodec where
  byteLength : Json → Nat
  thresholdBytes : Nat

namespace PayloadCodec

variable (codec : PayloadCodec)

def key (runId : RunId) (stepId : StepId) : List Char :=
  (toString runId).toList ++ '/' :: stepId.toList

def marker (ref : String) : Json := .obj [("$zenzipBlob", .str ref)]

def offload (b : FilesystemBlobStore) (runId : RunId) (stepId : StepId) (json : Json) :
    FilesystemBlobStore × Json :=
  if codec.byteLength json ≤ codec.thresholdBytes then (b, json)
  else ((b.put (key runId stepId) json).1, marker (b.put (key runId stepId) json).2)

/-- The text starts with `{"$zenzipBlob"` and has a string there. -/
def markerRef : Json → Option String
  | .obj ((k, .str ref) :: _) => if k = "$zenzipBlob" then some ref else none
  | _ => none

/-- A reference without a file is taken for the literal value. -/
def rehydrate (b : FilesystemBlobStore) (stored : Option Json) : Option Json :=
  match stored.bind markerRef with
  | some ref => (b.get? ref).or stored
  | none => stored

variable {codec} {b : FilesystemBlobStore}

theorem rehydrate_of_ref {stored : Json} {ref : String} (h : markerRef stored = some ref) :
    rehydrate b (some stored) = some ((b.get? ref).getD stored) := by
  rw [rehydrate, Option.bind_some, h]
  exact Option.or_some

theorem rehydrate_of_no_ref {stored : Json} (h : markerRef stored = none) :
    rehydrate b (some stored) = some stored := by
  rw [rehydrate, Option.bind_some, h]

end PayloadCodec

/-- The engine's store, the blob store, and the attempts that are between the two:
each holds what it is to record for a step. -/
structure Offloading where
  store : Store
  blobs : FilesystemBlobStore
  attempts : List (RunId × StepId × Json)

namespace Offloading

inductive Label
  | offload (runId : RunId) (stepId : StepId) (json : Json)
  | record (i : Nat)
  | crash (i : Nat)
  | store (op : StoreOp)

variable (codec : PayloadCodec)

def step (σ : Offloading) : Time × Label → Option Offloading
  | (_, .offload runId stepId json) =>
    let out := codec.offload σ.blobs runId stepId json
    some ⟨σ.store, out.1, σ.attempts ++ [(runId, stepId, out.2)]⟩
  | (now, .record i) => (σ.attempts[i]?).map (fun (runId, stepId, toStore) =>
    ⟨σ.store.recordStep runId stepId .run (some toStore) now, σ.blobs, σ.attempts.eraseIdx i⟩)
  | (_, .crash i) => (σ.attempts[i]?).map (fun _ => ⟨σ.store, σ.blobs, σ.attempts.eraseIdx i⟩)
  | (now, .store op) => some ⟨op.perform σ.store now, σ.blobs, σ.attempts⟩

def rehydrated (σ : Offloading) (r : RunId) (st : StepId) : Option (Option Json) :=
  (σ.store.steps.get? (r, st)).bind
    (fun e => if e.completed then some (PayloadCodec.rehydrate σ.blobs e.result) else none)

/-- The file that the journal entry of a step refers to, and what it stands for while there is no
such file. -/
def refers (σ : Offloading) (r : RunId) (st : StepId) : Option (String × Json) :=
  (σ.store.steps.get? (r, st)).bind (fun e => if e.completed then
    e.result.bind (fun stored => (PayloadCodec.markerRef stored).map (fun ref => (ref, stored)))
      else none)

/-- The attempt does not put other data into the file that the entry refers to. -/
def keepsBlob (r : RunId) (st : StepId) (σ : Offloading) (l : Time × Label) : Bool :=
  match l.2, σ.refers r st with
  | .offload runId stepId json, some (ref, stored) =>
    codec.byteLength json ≤ codec.thresholdBytes ||
      σ.blobs.file (FilesystemBlobStore.refOf (PayloadCodec.key runId stepId)) ≠ σ.blobs.file ref ||
        json = (σ.blobs.get? ref).getD stored
  | _, _ => true

variable {codec} {σ σ' : Offloading} {now : Time} {r : RunId} {st : StepId} {v : Option Json}

theorem rehydrated_eq {e : StepRow} (he : σ.store.steps.get? (r, st) = some e)
    (hc : e.completed = true) :
    σ.rehydrated r st = some (PayloadCodec.rehydrate σ.blobs e.result) := by
  rw [rehydrated, he, Option.bind_some, if_pos hc]

theorem entry_of_rehydrated (h : σ.rehydrated r st = some v) :
    ∃ e, σ.store.steps.get? (r, st) = some e ∧
    e.completed = true ∧ PayloadCodec.rehydrate σ.blobs e.result = v := by
  obtain ⟨e, he, hv⟩ := Option.bind_eq_some_iff.mp h
  by_cases hc : e.completed = true
  · rw [if_pos hc, Option.some.injEq] at hv
    exact ⟨e, he, hc, hv⟩
  · rw [if_neg hc] at hv
    cases hv

/-- An attempt that offloads its result changes what an entry is rehydrated to exactly
when it puts other data into the file of the entry. -/
theorem rehydrated_offload_iff {runId : RunId} {stepId : StepId} {json : Json}
    (hv : σ.rehydrated r st = some v)
    (hs : step codec σ (now, .offload runId stepId json) = some σ') :
    σ'.rehydrated r st = some v ↔
      keepsBlob codec r st σ (now, .offload runId stepId json) = true := by
  obtain ⟨e, he, hc, rfl⟩ := entry_of_rehydrated hv
  have hafter : σ'.rehydrated r st =
    some (PayloadCodec.rehydrate (codec.offload σ.blobs runId stepId json).1 e.result) := by
    cases hs
    exact rehydrated_eq he hc
  rw [hafter, Option.some.injEq, keepsBlob, refers, he, Option.bind_some, if_pos hc]
  cases hres : e.result with
  | none => exact iff_of_true rfl rfl
  | some stored =>
      rw [Option.bind_some]
      cases href : PayloadCodec.markerRef stored with
      | none =>
          exact iff_of_true
            ((PayloadCodec.rehydrate_of_no_ref href).trans
              (PayloadCodec.rehydrate_of_no_ref href).symm) rfl
      | some ref =>
          rw [PayloadCodec.rehydrate_of_ref href, PayloadCodec.rehydrate_of_ref href,
            Option.some.injEq, Option.map_some]
          simp only [Bool.or_eq_true, decide_eq_true_eq]
          by_cases hle : codec.byteLength json ≤ codec.thresholdBytes
          · simp [PayloadCodec.offload, hle]
          · simp only [PayloadCodec.offload, hle, if_false, FilesystemBlobStore.get?_put, false_or]
            by_cases hfile : σ.blobs.file ref =
              σ.blobs.file (FilesystemBlobStore.refOf (PayloadCodec.key runId stepId))
            · simp [hfile]
            · have hfile' : ¬ σ.blobs.file
                (FilesystemBlobStore.refOf (PayloadCodec.key runId stepId)) = σ.blobs.file ref :=
                fun h => hfile h.symm
              simp [hfile, hfile']

def init (s : Store) (b : FilesystemBlobStore) : Offloading := ⟨s, b, []⟩

theorem store_of_step {l : Time × Label} (hf : σ.store.Fresh) (hs : step codec σ l = some σ') :
    σ'.store.Fresh ∧ σ.store.KeepsJournal σ'.store := by
  obtain ⟨now, l⟩ := l
  cases l with
  | offload runId stepId json =>
      cases hs
      exact ⟨hf, .refl _⟩
  | record i =>
      obtain ⟨⟨runId, stepId, toStore⟩, _, rfl⟩ := Option.map_eq_some_iff.mp hs
      let c : Call := .recordStep runId stepId .run (some toStore)
      exact ⟨hf.perform c now [], c.keepsJournal hf now []⟩
  | crash i =>
      obtain ⟨_, _, rfl⟩ := Option.map_eq_some_iff.mp hs
      exact ⟨hf, .refl _⟩
  | store op =>
      cases hs
      exact ⟨op.fresh hf, op.keepsJournal hf now⟩

theorem blobs_of_step {l : Time × Label}
    (hl : ∀ runId stepId json, l.2 ≠ .offload runId stepId json)
    (hs : step codec σ l = some σ') : σ'.blobs = σ.blobs := by
  obtain ⟨now, l⟩ := l
  cases l with
  | offload runId stepId json => exact absurd rfl (hl runId stepId json)
  | record | crash =>
      obtain ⟨_, _, rfl⟩ := Option.map_eq_some_iff.mp hs
      rfl
  | store op =>
      cases hs
      rfl

theorem rehydrated_step {l : Time × Label} (hf : σ.store.Fresh) (hlt : r < σ.store.nextId)
    (hr : (σ'.store.runs.get? r).isSome) (hv : σ.rehydrated r st = some v)
    (hok : keepsBlob codec r st σ l = true)
    (hs : step codec σ l = some σ') : σ'.rehydrated r st = some v := by
  by_cases hl : ∃ runId stepId json, l.2 = .offload runId stepId json
  · obtain ⟨now, l⟩ := l
    obtain ⟨runId, stepId, json, rfl⟩ := hl
    exact (rehydrated_offload_iff hv hs).mpr hok
  · have hblobs := blobs_of_step (fun runId stepId json he => hl ⟨runId, stepId, json, he⟩) hs
    obtain ⟨e, he, hc, rfl⟩ := entry_of_rehydrated hv
    obtain ⟨e', he', hc', _, hres⟩ := (store_of_step hf hs).2.entry r st e hlt hr he hc
    rw [rehydrated_eq he' hc', hblobs, hres]

/-- An offloaded result is recorded once, as long as nobody puts other data into the
file that it was recorded with. -/
theorem offloaded_result_kept {s : Store} {b : FilesystemBlobStore}
    {ok : Offloading → Time × Label → Bool}
    (hs : s.Fresh) (h : Run (step codec) ok (init s b) σ)
    (h' : Run (step codec) (keepsBlob codec r st) σ σ')
    (hr : (σ.store.runs.get? r).isSome) (hr' : (σ'.store.runs.get? r).isSome)
    (hv : σ.rehydrated r st = some v) :
    σ'.rehydrated r st = some v := by
  have hf : σ.store.Fresh :=
    h.invariant (fun τ => τ.store.Fresh) hs (fun _ _ _ _ hf _ hstep => (store_of_step hf hstep).1)
  obtain ⟨row, hrow⟩ := Option.isSome_iff_exists.mp hr
  have hlt := hf.runs r row hrow
  have hall : σ'.store.Fresh ∧ σ.store.KeepsJournal σ'.store ∧
      ((σ'.store.runs.get? r).isSome → σ'.rehydrated r st = some v) := by
    refine h'.invariant (fun τ => τ.store.Fresh ∧ σ.store.KeepsJournal τ.store ∧
      ((τ.store.runs.get? r).isSome → τ.rehydrated r st = some v)) ⟨hf, .refl _, fun _ => hv⟩ ?_
    intro τ l τ' _ ⟨hfτ, hkeep, hI⟩ hok hstep
    obtain ⟨hfτ', hkeep'⟩ := store_of_step hfτ hstep
    have hltτ := Nat.lt_of_lt_of_le hlt hkeep.nextId_le
    refine ⟨hfτ', hkeep.trans hkeep', fun hrτ' => ?_⟩
    have hrτ : (τ.store.runs.get? r).isSome := by
      cases hn : τ.store.runs.get? r with
      | some _ => rfl
      | none =>
          rw [hkeep'.absent r hltτ hn] at hrτ'
          cases hrτ'
    exact rehydrated_step hfτ hltτ hrτ' (hI hrτ) hok hstep
  exact hall.2.2 hr'

section Sample

/-- A codec for texts that are plain strings, with a small threshold. -/
def sampleCodec : PayloadCodec :=
  ⟨fun json => match json with | .str s => s.utf8ByteSize + 2 | _ => 4, 8⟩

/-- An empty store in the directory "blobs". -/
def sampleBlobs : FilesystemBlobStore := ⟨['/', 'z'], ['b', 'l', 'o', 'b', 's'], fun _ => none⟩

def firstAttempt : List (Time × Label) :=
  [(0, .store (.call (.createRun ⟨"order", .null, none, none, none, none, none⟩) [])),
    (1, .offload 0 "pay" (.str "receipt-1")), (2, .record 0)]

/-- A small second result of the step, and a large one of another step. -/
theorem offloaded_result_kept_apart : ∃ σ σ',
    Run (step sampleCodec) (keepsBlob sampleCodec 0 "pay") (init .empty sampleBlobs) σ ∧
    Run (step sampleCodec) (keepsBlob sampleCodec 0 "pay") σ σ' ∧ σ'.attempts.length = 1 ∧
    σ'.rehydrated 0 "pay" = some (some (.str "receipt-1")) := by
  obtain ⟨σ, σ', h, h', hp⟩ :=
    Run.exists_of_replay₂ (step sampleCodec) (keepsBlob sampleCodec 0 "pay")
    (init .empty sampleBlobs) firstAttempt
    [(3, .offload 0 "pay" (.str "ok")), (4, .offload 0 "ship" (.str "parcel-17")), (5, .record 0)]
    (fun σ σ' => ((σ.store.runs.get? 0).isSome && (σ'.store.runs.get? 0).isSome) &&
      (σ.rehydrated 0 "pay" = some (some (.str "receipt-1")) && σ'.attempts.length = 1))
        (by decide +kernel)
  simp only [Bool.and_eq_true, decide_eq_true_eq] at hp
  exact ⟨σ, σ', h, h', hp.2.2, offloaded_result_kept .empty h h' hp.1.1 hp.1.2 hp.2.1⟩

/-- The second attempt puts its own result into the file that the first one recorded. -/
theorem second_attempt_replaces_result : ∃ σ σ',
    Run (step sampleCodec) (fun _ _ => true) (init .empty sampleBlobs) σ ∧
    Run (step sampleCodec) (fun _ _ => true) σ σ' ∧ (σ'.store.runs.get? 0).isSome ∧
    σ.rehydrated 0 "pay" = some (some (.str "receipt-1")) ∧
    σ'.rehydrated 0 "pay" = some (some (.str "receipt-2")) := by
  obtain ⟨σ, σ', h, h', hp⟩ :=
    Run.exists_of_replay₂ (step sampleCodec) (fun _ _ => true) (init .empty sampleBlobs)
    firstAttempt [(3, .offload 0 "pay" (.str "receipt-2")), (4, .record 0)]
    (fun σ σ' => (σ'.store.runs.get? 0).isSome &&
      (σ.rehydrated 0 "pay" = some (some (.str "receipt-1")) &&
      σ'.rehydrated 0 "pay" = some (some (.str "receipt-2")))) (by decide +kernel)
  simp only [Bool.and_eq_true, decide_eq_true_eq] at hp
  exact ⟨σ, σ', h, h', hp.1, hp.2⟩

end Sample

end Offloading

end ZenZip
