import ZenZip.Lib.Accum
import ZenZip.Lib.JsonText
import ZenZip.Sdk.Payload

namespace ZenZip

open Lib
open Lib.PosixPath (Path)

namespace Blobs

def markerKey : List Char := ['$', 'z', 'e', 'n', 'z', 'i', 'p', 'B', 'l', 'o', 'b']

def markerPrefix : List Char := '\x7b' :: '"' :: (markerKey ++ ['"'])

/-- `JSON.stringify` of the object with the reference in it. -/
def marker (ref : String) : String := String.ofList (JsonText.stringifyField markerKey ref.toList)

def property (fields : List (List Char × JsonValue)) (k : List Char) : Option JsonValue :=
  (fields.reverse.find? (fun f => f.1 = k)).map (·.2)

/-- The reference in a text that starts as a marker does, if `JSON.parse` finds a string there. -/
def markerRef (stored : String) : Option String :=
  if markerPrefix.isPrefixOf stored.toList then
    match JsonText.parse stored.toList with
    | some (.object fields) => match property fields markerKey with
      | some (.string ref) => some (String.ofList ref)
      | _ => none
    | _ => none
  else none

/-- The error of a read goes the same way as one of the parser: the literal value. -/
def rehydrate (get : String → Except String String) : Option String → Except String (Option String)
  | none => .ok none
  | some stored => match markerRef stored with
    | none => .ok (some stored)
    | some ref => match get ref with
      | .ok data => .ok (some data)
      | .error _ => .ok (some stored)

theorem markerRef_marker (ref : String) : markerRef (marker ref) = some ref := by
  have hprefix : markerPrefix.isPrefixOf (JsonText.stringifyField markerKey ref.toList) = true :=
    rfl
  rw [markerRef, marker, String.toList_ofList, if_pos hprefix, JsonText.parse_stringifyField]
  show some (String.ofList ref.toList) = some ref
  rw [String.ofList_toList]

theorem rehydrate_of_ok {get : String → Except String String} {stored ref data : String}
    (h : markerRef stored = some ref)
    (hget : get ref = .ok data) : rehydrate get (some stored) = .ok (some data) := by
  simp only [rehydrate, h, hget]

theorem rehydrate_of_error {get : String → Except String String} {stored ref e : String}
    (h : markerRef stored = some ref)
    (hget : get ref = .error e) : rehydrate get (some stored) = .ok (some stored) := by
  simp only [rehydrate, h, hget]

theorem rehydrate_of_literal {get : String → Except String String} {stored : String}
    (h : markerRef stored = none) :
    rehydrate get (some stored) = .ok (some stored) := by
  simp only [rehydrate, h]

end Blobs

/-- The directory of the store, where the process runs, and the files by their absolute paths. -/
structure BlobFiles where
  cwd : Path
  dir : Path
  files : Path → Option String

structure OffloadCall where
  runId : String
  stepId : String
  json : String

namespace OffloadCall

def ref (c : OffloadCall) : String :=
  FilesystemBlobStore.refOf (c.runId.toList ++ '/' :: c.stepId.toList)

def big (thresholdBytes : Nat) (c : OffloadCall) : Bool := thresholdBytes < c.json.utf8ByteSize

def stored (thresholdBytes : Nat) (c : OffloadCall) : String :=
  if c.big thresholdBytes then Blobs.marker c.ref else c.json

end OffloadCall

namespace BlobFiles

def file (b : BlobFiles) (ref : String) : Option Path :=
  FilesystemBlobStore.fileAt b.cwd b.dir ref

def get (b : BlobFiles) (ref : String) : Except String String :=
  match (b.file ref).bind b.files with
  | some data => .ok data
  | none => .error "ENOENT: no such file or directory"

def put (b : BlobFiles) (c : OffloadCall) : BlobFiles × String :=
  ({ b with files := fun path => if b.file c.ref = some path then some c.json else b.files path },
    c.ref)

def offload (thresholdBytes : Nat) (b : BlobFiles) (c : OffloadCall) : BlobFiles × String :=
  if c.json.utf8ByteSize ≤ thresholdBytes then (b, c.json)
  else ((b.put c).1, Blobs.marker (b.put c).2)

def offloadAll (thresholdBytes : Nat) (b : BlobFiles) (calls : List OffloadCall) :
    BlobFiles × List String :=
  mapAccum (offload thresholdBytes) b calls

/-- Every value that was offloaded is rehydrated to what it was. -/
def Lossless (thresholdBytes : Nat) (b : BlobFiles) (calls : List OffloadCall) : Prop :=
  (b.offloadAll thresholdBytes calls).2.map
      (fun s => Blobs.rehydrate (b.offloadAll thresholdBytes calls).1.get (some s)) =
    calls.map (fun c => .ok (some c.json))

variable {thresholdBytes : Nat} {b : BlobFiles} {calls : List OffloadCall} {c c' : OffloadCall}
  {path : Path} {ref : String}

theorem file_ref (b : BlobFiles) (c : OffloadCall) : (b.file c.ref).isSome := by
  rw [file, OffloadCall.ref, FilesystemBlobStore.fileAt_refOf]
  rfl

theorem file_offload (b : BlobFiles) (c : OffloadCall) (ref : String) :
    (b.offload thresholdBytes c).1.file ref = b.file ref := by
  unfold offload
  by_cases hle : c.json.utf8ByteSize ≤ thresholdBytes
  · rw [if_pos hle]
  · rw [if_neg hle]
    rfl

theorem file_offloadAll (b : BlobFiles) (calls : List OffloadCall) (ref : String) :
    (b.offloadAll thresholdBytes calls).1.file ref = b.file ref := by
  induction calls generalizing b with
  | nil => rfl
  | cons c calls ih => exact (ih (b.offload thresholdBytes c).1).trans (file_offload b c ref)

theorem get_eq (h : b.file ref = some path) :
    b.get ref = match b.files path with
      | some data => .ok data
      | none => .error "ENOENT: no such file or directory" := by
  rw [get, h, Option.bind_some]

theorem offload_snd (thresholdBytes : Nat) (b : BlobFiles) (c : OffloadCall) :
    (b.offload thresholdBytes c).2 = c.stored thresholdBytes := by
  unfold offload OffloadCall.stored OffloadCall.big
  by_cases hle : c.json.utf8ByteSize ≤ thresholdBytes
  · rw [if_pos hle, if_neg (by simpa using hle)]
  · rw [if_neg hle, if_pos (decide_eq_true (Nat.lt_of_not_le hle))]
    rfl

theorem files_offload (b : BlobFiles) (c : OffloadCall) (path : Path) :
    (b.offload thresholdBytes c).1.files path =
      if c.big thresholdBytes ∧ b.file c.ref = some path then some c.json else b.files path := by
  unfold offload OffloadCall.big
  by_cases hle : c.json.utf8ByteSize ≤ thresholdBytes
  · rw [if_pos hle, if_neg (by simp [hle])]
  · by_cases hfile : b.file c.ref = some path
    · rw [if_neg hle, if_pos ⟨decide_eq_true (Nat.lt_of_not_le hle), hfile⟩]
      exact if_pos hfile
    · rw [if_neg hle, if_neg (fun h => hfile h.2)]
      exact if_neg hfile

theorem stored_offloadAll (thresholdBytes : Nat) (b : BlobFiles) (calls : List OffloadCall) :
    (b.offloadAll thresholdBytes calls).2 = calls.map (OffloadCall.stored thresholdBytes) := by
  have hmap : ((b.offloadAll thresholdBytes calls).2).map id =
    calls.map (OffloadCall.stored thresholdBytes) :=
    mapAccum_map (fun s c _ => offload_snd thresholdBytes s c) b
  rwa [List.map_id] at hmap

/-- A file holds what the last of the calls that use it wrote. -/
theorem files_offloadAll (thresholdBytes : Nat) (b : BlobFiles) (calls : List OffloadCall)
    (path : Path) :
    (∃ c ∈ calls, c.big thresholdBytes ∧ b.file c.ref = some path ∧
      (b.offloadAll thresholdBytes calls).1.files path = some c.json) ∨
    (∀ c ∈ calls, c.big thresholdBytes → b.file c.ref ≠ some path) ∧
      (b.offloadAll thresholdBytes calls).1.files path = b.files path := by
  induction calls generalizing b with
  | nil =>
      refine .inr ⟨fun c hc => ?_, rfl⟩
      cases hc
  | cons c calls ih =>
      have hrest := ih (b.offload thresholdBytes c).1
      simp only [file_offload] at hrest
      rcases hrest with ⟨c', hc', hbig, hfile, hdata⟩ | ⟨hnone, hsame⟩
      · exact .inl ⟨c', List.mem_cons_of_mem c hc', hbig, hfile, hdata⟩
      · rw [files_offload] at hsame
        by_cases hwrites : c.big thresholdBytes ∧ b.file c.ref = some path
        · rw [if_pos hwrites] at hsame
          exact .inl ⟨c, List.mem_cons_self, hwrites.1, hwrites.2, hsame⟩
        · rw [if_neg hwrites] at hsame
          refine .inr ⟨fun c' hc' hbig hfile => ?_, hsame⟩
          rcases List.mem_cons.mp hc' with rfl | hc'
          · exact hwrites ⟨hbig, hfile⟩
          · exact hnone c' hc' hbig hfile

theorem lossless_iff_each : Lossless thresholdBytes b calls ↔ ∀ c ∈ calls,
    Blobs.rehydrate (b.offloadAll thresholdBytes calls).1.get (some (c.stored thresholdBytes)) =
      .ok (some c.json) := by
  rw [Lossless, stored_offloadAll, List.map_map, List.map_inj_left]
  rfl

theorem rehydrate_big (hc : c ∈ calls) (hbig : c.big thresholdBytes = true)
    (hfile : b.file c.ref = some path) :
    Blobs.rehydrate (b.offloadAll thresholdBytes calls).1.get (some (c.stored thresholdBytes)) =
        .ok (some c.json) ↔
      (b.offloadAll thresholdBytes calls).1.files path = some c.json := by
  rw [OffloadCall.stored, if_pos hbig]
  have hfile' : (b.offloadAll thresholdBytes calls).1.file c.ref = some path :=
    (file_offloadAll b calls c.ref).trans hfile
  have hget := get_eq hfile'
  rcases files_offloadAll thresholdBytes b calls path with ⟨c', _, _, _, hdata⟩ | ⟨hnone, _⟩
  · rw [hdata] at hget ⊢
    rw [Blobs.rehydrate_of_ok (Blobs.markerRef_marker c.ref) hget, Except.ok.injEq]
  · exact absurd hfile (hnone c hc hbig)

theorem rehydrate_inline (hbig : ¬ c.big thresholdBytes = true) :
    Blobs.rehydrate b.get (some (c.stored thresholdBytes)) = .ok (some c.json) ↔
      ∀ ref, Blobs.markerRef c.json = some ref → ∀ path, b.file ref = some path →
        ∀ data, b.files path = some data → data = c.json := by
  rw [OffloadCall.stored, if_neg hbig]
  cases href : Blobs.markerRef c.json with
  | none =>
      refine iff_of_true (Blobs.rehydrate_of_literal href) (fun ref h => ?_)
      cases h
  | some ref =>
      cases hdata : (b.file ref).bind b.files with
      | none =>
          have hget : b.get ref = .error "ENOENT: no such file or directory" := by
            simp only [get, hdata]
          refine iff_of_true (Blobs.rehydrate_of_error href hget)
            (fun ref' h path hpath data hd => ?_)
          cases h
          rw [hpath, Option.bind_some, hd] at hdata
          cases hdata
      | some data =>
          have hget : b.get ref = .ok data := by simp only [get, hdata]
          obtain ⟨path, hpath, hfile⟩ := Option.bind_eq_some_iff.mp hdata
          rw [Blobs.rehydrate_of_ok href hget, Except.ok.injEq, Option.some.injEq]
          constructor
          · intro he ref' h path' hpath' data' hd
            cases h
            rw [hpath] at hpath'
            cases hpath'
            rw [hfile] at hd
            cases hd
            exact he
          · exact fun h => h ref rfl path hpath data hfile

/-- Offloading loses nothing exactly when values that share a file are the same, and no
inline value looks like the marker of a file with other data in it. -/
theorem lossless_iff (thresholdBytes : Nat) (b : BlobFiles) (calls : List OffloadCall) :
    Lossless thresholdBytes b calls ↔
    (∀ c ∈ calls, ∀ c' ∈ calls, c.big thresholdBytes → c'.big thresholdBytes →
      b.file c.ref = b.file c'.ref → c.json = c'.json) ∧
    ∀ c ∈ calls, ¬ c.big thresholdBytes → ∀ ref, Blobs.markerRef c.json = some ref →
      ∀ path, b.file ref = some path →
        (∀ c' ∈ calls, c'.big thresholdBytes → b.file c'.ref ≠ some path) ∧
        ∀ data, b.files path = some data → data = c.json := by
  rw [lossless_iff_each]
  constructor
  · intro h
    refine ⟨fun c hc c' hc' hbig hbig' hshared => ?_, fun c hc hbig ref href path hpath => ?_⟩
    · obtain ⟨path, hpath⟩ := Option.isSome_iff_exists.mp (file_ref b c)
      have hdata := (rehydrate_big hc hbig hpath).mp (h c hc)
      have hdata' := (rehydrate_big hc' hbig' (hshared ▸ hpath)).mp (h c' hc')
      rw [hdata] at hdata'
      exact Option.some.inj hdata'
    · have hinline := (rehydrate_inline hbig).mp (h c hc) ref href path
        ((file_offloadAll b calls ref).trans hpath)
      rcases files_offloadAll thresholdBytes b calls
        path with ⟨c', _, hbig', _, hdata⟩ | ⟨hnone, hsame⟩
      · -- what is in a file is over the threshold
        rw [OffloadCall.big, hinline _ hdata] at hbig'
        exact absurd hbig' hbig
      · rw [hsame] at hinline
        exact ⟨hnone, hinline⟩
  · rintro ⟨hshared, hinline⟩ c hc
    by_cases hbig : c.big thresholdBytes = true
    · obtain ⟨path, hpath⟩ := Option.isSome_iff_exists.mp (file_ref b c)
      refine (rehydrate_big hc hbig hpath).mpr ?_
      rcases files_offloadAll thresholdBytes b calls
        path with ⟨c', hc', hbig', hfile, hdata⟩ | ⟨hnone, _⟩
      · rw [hdata, hshared c' hc' c hc hbig' hbig (hfile.trans hpath.symm)]
      · exact absurd hpath (hnone c hc hbig)
    · refine (rehydrate_inline hbig).mpr (fun ref href path hpath data hdata => ?_)
      rw [file_offloadAll] at hpath
      obtain ⟨hnone, hold⟩ := hinline c hc hbig ref href path hpath
      rcases files_offloadAll thresholdBytes b calls
        path with ⟨c', hc', hbig', hfile, _⟩ | ⟨_, hsame⟩
      · exact absurd hfile (hnone c' hc' hbig')
      · rw [hsame] at hdata
        exact hold data hdata

/-- No files yet, and the directory "blobs" of the working directory. -/
def noFiles : BlobFiles := ⟨['/', 'z'], ['b', 'l', 'o', 'b', 's'], fun _ => none⟩

/-- Two step ids with one file, and a small value that looks like the marker of a large one. -/
theorem offload_loses :
    (∃ calls : List OffloadCall,
      calls.Pairwise (fun c c' => (c.runId, c.stepId) ≠ (c'.runId, c'.stepId)) ∧
      ¬ Lossless 4 noFiles calls) ∧
    ∃ calls : List OffloadCall,
      calls.Pairwise (fun c c' => (c.runId, c.stepId) ≠ (c'.runId, c'.stepId)) ∧
      (∀ c ∈ calls, ∀ c' ∈ calls, noFiles.file c.ref = noFiles.file c'.ref → c.json = c'.json) ∧
      ¬ Lossless 30 noFiles calls := by
  have hfile : noFiles.file "r/a.json" =
      some ['/', 'z', '/', 'b', 'l', 'o', 'b', 's', '/', 'r', '/', 'a', '.', 'j', 's', 'o',
        'n'] := by decide +kernel
  constructor
  · refine ⟨[⟨"r", "a:b", "[1,2,3]"⟩, ⟨"r", "a_b", "[4,5,6]"⟩], by decide, fun h => ?_⟩
    have hshared : noFiles.file (OffloadCall.ref ⟨"r", "a:b", "[1,2,3]"⟩) =
        some ['/', 'z', '/', 'b', 'l', 'o', 'b', 's', '/', 'r', '/', 'a', '_', 'b', '.', 'j', 's',
          'o', 'n'] := by
      decide +kernel
    have hfirst := (rehydrate_big List.mem_cons_self (by decide) hshared).mp
      (lossless_iff_each.mp h _ List.mem_cons_self)
    revert hfirst
    decide +kernel
  · refine ⟨[⟨"r", "a", "[10001,10002,10003,10004,10005,10006]"⟩,
      ⟨"r", "b", Blobs.marker "r/a.json"⟩], by decide,
      by decide +kernel, fun h => ?_⟩
    have hmem : (⟨"r", "b", Blobs.marker "r/a.json"⟩ : OffloadCall) ∈
        [(⟨"r", "a", "[10001,10002,10003,10004,10005,10006]"⟩ : OffloadCall),
          ⟨"r", "b", Blobs.marker "r/a.json"⟩] :=
      List.mem_cons_of_mem _ List.mem_cons_self
    have hsecond :=
      (rehydrate_inline (by decide +kernel)).mp (lossless_iff_each.mp h _ hmem) "r/a.json"
      (Blobs.markerRef_marker _) _ ((file_offloadAll noFiles _ _).trans hfile)
      "[10001,10002,10003,10004,10005,10006]" (by decide +kernel)
    revert hsecond
    decide +kernel

end BlobFiles

end ZenZip
