import Wubi.Backend.Files

/-!
# Copying and hashing by chunks

`copy_file` and `get_file_md5` read one MiB at a time and report every chunk to
their task, which may ask them to stop. `copy_file` counts chunks and compares
the count with the length in bytes; `get_file_md5` fixes the number of rounds
beforehand, from the length in whole MiB.

**Answers.** `asks user withTask s k` is the answer of the `k`-th report from
state `s` on, counted from 0. The answers up to the first True are arbitrary.

**Results.** A copy that is never asked to stop is the whole source, and one
that is asked at chunk `k` holds exactly the chunks before it. The hash is that
of the whole file, or None if a report asked to stop.
-/
namespace Wubi.Backend

open Wubi.Tasks Wubi.Tasks.Prog

/-- The answer of the `k`-th `set_progress` from `s` on, when none before it
has asked to stop. Without a task there is no such call. -/
def asks (user : Nat → Bool) (withTask : Bool) (s : St World) (k : Nat) : Bool :=
  withTask && (s.cancelled || user (s.polls + k))

/-- The first report that asks to stop is that of chunk `k`. -/
def FirstAsks (answers : Nat → Bool) (k : Nat) : Prop :=
  (∀ j < k, answers j = false) ∧ answers k = true

/-- The state behind a report. -/
def reported (user : Nat → Bool) (withTask : Bool) (s : St World) : St World :=
  if withTask then s.poll user else s

/-- The chunks in front of the first one whose report asks to stop. -/
def untilStop (answers : Nat → Bool) : List Str → List Str
  | [] => []
  | c :: cs => if answers 0 then [] else c :: untilStop (fun k => answers (k + 1)) cs

theorem untilStop_of_never {answers : Nat → Bool} {data : List Str}
    (h : ∀ k < data.length, answers k = false) : untilStop answers data = data := by
  induction data generalizing answers with
  | nil => rfl
  | cons c cs ih =>
    have hcs : untilStop (fun k => answers (k + 1)) cs = cs :=
      ih fun k hk => h (k + 1) (by simpa using hk)
    simp [untilStop, h 0 (by simp), hcs]

theorem untilStop_of_first {answers : Nat → Bool} {data : List Str} {k : Nat}
    (hk : k < data.length) (h : FirstAsks answers k) : untilStop answers data = data.take k := by
  obtain ⟨hbefore, hask⟩ := h
  induction data generalizing answers k with
  | nil => simp at hk
  | cons c cs ih =>
    cases k with
    | zero => simp [untilStop, hask]
    | succ k =>
      have hcs : untilStop (fun k => answers (k + 1)) cs = cs.take k :=
        ih (by simpa using hk) (fun j hj => hbefore (j + 1) (by omega)) hask
      simp [untilStop, hbefore 0 (by omega), hcs]

section
variable {env : Env} {user : Nat → Bool} {withTask : Bool} {s : St World}

@[simp] theorem asks_map {f : World → World} : asks user withTask (s.map f) = asks user withTask s :=
  rfl

@[simp] theorem reported_read {p : Str} :
    (reported user withTask s).world.read env p = s.world.read env p := by
  unfold reported
  split <;> rfl

theorem asks_reported (h : asks user withTask s 0 = false) :
    asks user withTask (reported user withTask s) = fun k => asks user withTask s (k + 1) := by
  funext k
  cases withTask with
  | false => rfl
  | true =>
    simp only [asks, Bool.true_and, Bool.or_eq_false_iff, Nat.add_zero] at h
    simp [asks, reported, St.poll, h, Nat.add_assoc, Nat.add_comm 1]

/-- A report that asks to stop leaves the task cancelled. -/
theorem asks_live (h : (reported user withTask s).cancelled = false) :
    asks user withTask s 0 = false := by
  cases withTask with
  | false => rfl
  | true => exact h

theorem unasked_cons {s' : St World} {c : Str} {cs : List Str}
    (hask : asks user withTask s 0 = false)
    (hanswers : asks user withTask s' = fun k => asks user withTask s (k + 1))
    (h : ∀ k < cs.length, asks user withTask s' k = false) :
    ∀ k < (c :: cs).length, asks user withTask s k = false := by
  rw [hanswers] at h
  exact Nat.forall_lt_succ_left.2 ⟨hask, h⟩

theorem wp_report {n : Nat} {Q : Bool → St World → Prop} {R : PyErr → St World → Prop} :
    wp user (report withTask n) Q R s ↔
      Q (asks user withTask s 0) (reported user withTask s) := by
  cases withTask with
  | false => exact Iff.rfl
  | true => exact Iff.rfl

/-- Only an operation on the files raises. -/
def FileError (env : Env) (e : PyErr) (_ : St World) : Prop := ∃ k, env.ioError k = some e

theorem wp_when_finish {Q : Unit → St World → Prop} {R : PyErr → St World → Prop} :
    wp (V := Val) user (.when withTask .finish) Q R s ↔ Q () s := by
  cases withTask <;> exact Iff.rfl

theorem wp_when_setSize {n : Nat} {Q : Unit → St World → Prop} {R : PyErr → St World → Prop} :
    wp (V := Val) user (.when withTask (.setSize n)) Q R s ↔ Q () s := by
  cases withTask <;> exact Iff.rfl

/-! ## `copy_file` -/

/-- The early exit never comes before the last chunk: a file has at most as
many chunks as bytes. -/
theorem wp_copyLoop {target acc : Str} {fileSize : Nat} {data : List Str} {n : Nat}
    (hsize : n + data.length ≤ fileSize) (hacc : s.world.read env target = some acc) :
    wp user (copyLoop env withTask target fileSize data n)
      (fun _ s' => s'.world.read env target =
          some (acc ++ (untilStop (asks user withTask s) data).flatten) ∧
        (s'.cancelled = false → ∀ k < data.length, asks user withTask s k = false))
      (FileError env) s := by
  induction data generalizing n acc s with
  | nil =>
    simp only [copyLoop, wp_bind, wp_io, wp_when_finish, untilStop]
    exact ⟨fun _ => ⟨by simp [hacc], fun _ k hk => absurd hk (Nat.not_lt_zero k)⟩,
      fun e he => ⟨_, he⟩⟩
  | cons c cs ih =>
    simp only [copyLoop, wp_bind, wp_io, wp_report, wp_ite, wp_pure, wp_modify, wp_when_finish,
      asks_map]
    refine ⟨fun _ => ⟨fun hask => ⟨by simp [untilStop, hask, hacc], fun hlive => ?_⟩,
      fun hgo => ⟨fun _ => ?_, fun e he => ⟨_, he⟩⟩⟩, fun e he => ⟨_, he⟩⟩
    · -- who asked to stop has cancelled the task
      have hno := asks_live hlive
      rw [asks_map, hask] at hno
      cases hno
    have hask : asks user withTask s 0 = false := by simpa using hgo
    generalize hs' : St.map _ _ = s'
    have hread : s'.world.read env target = some (acc ++ c) := by
      rw [← hs']
      simp [hacc]
    have hanswers : asks user withTask s' = fun k => asks user withTask s (k + 1) := by
      rw [← hs', asks_map, asks_map]
      exact asks_reported (s := s.map (World.advance 1)) hask
    have hlen : n + 1 + cs.length ≤ fileSize := by
      rw [List.length_cons] at hsize
      omega
    refine ⟨fun hend => ?_, fun _ => ?_⟩
    · -- `data_read >= file_size`: this was the last chunk
      have hnil : cs = [] := List.length_eq_zero_iff.1 (by omega)
      subst hnil
      exact ⟨by simp [untilStop, hask, hread], fun _ => unasked_cons hask hanswers
        fun k hk => absurd hk (Nat.not_lt_zero k)⟩
    · refine wp_mono (ih hlen hread) (fun _ s₁ h => ⟨?_, fun hlive => ?_⟩) fun _ _ h => h
      · rw [h.1, hanswers]
        simp [untilStop, hask]
      · exact unasked_cons hask hanswers (h.2 hlive)

/-- `data` is what the source holds once the target has been opened: its
content, unless both are the same file, which opening the target has emptied. -/
theorem copyFile_copies {source target content : Str}
    (hread : s.world.read env source = some content) :
    wp user (copyFile env source target withTask)
      (fun _ s' => ∃ data, s'.world.read env source = some data ∧
        (env.abspath source ≠ env.abspath target → data = content) ∧
        ((∀ k < (data.chunks mib).length, asks user withTask s k = false) →
          s'.world.read env target = some data) ∧
        ∀ k < (data.chunks mib).length, FirstAsks (asks user withTask s) k →
          s'.world.read env target = some (data.take (k * mib)))
      (FileError env) s := by
  have hmib : 0 < mib := by decide
  unfold copyFile
  simp only [wp_bind, wp_get, World.sourceSize, hread, wp_when_setSize, wp_io, put, wp_modify]
  refine ⟨fun _ => ⟨fun _ => ?_, fun e he => ⟨_, he⟩⟩, fun e he => ⟨_, he⟩⟩
  generalize hs' : St.map _ _ = s'
  have hasks : asks user withTask s' = asks user withTask s := by
    rw [← hs', asks_map, asks_map, asks_map]
  have hopen : s'.world.read env target = some [] := by
    rw [← hs']
    simp
  obtain ⟨data, hdata, hother, hsame, hle⟩ : ∃ data, s'.world.read env source = some data ∧
      (env.abspath source ≠ env.abspath target → data = content) ∧
      (env.abspath source = env.abspath target → data = []) ∧ data.length ≤ content.length := by
    by_cases hpath : env.abspath source = env.abspath target
    · have hempty : s'.world.read env source = some [] := by
        unfold World.read at hopen ⊢
        rw [hpath, hopen]
      exact ⟨[], hempty, fun h => absurd hpath h, fun _ => rfl, Nat.zero_le _⟩
    · have hkeep : s'.world.read env source = some content := by
        rw [← hs']
        simp [World.read_write_of_ne hpath, hread]
      exact ⟨content, hkeep, fun _ => rfl, fun h => absurd h hpath, Nat.le_refl _⟩
  have hlen : 0 + (data.chunks mib).length ≤ content.length := by
    rw [Str.length_chunks hmib]
    unfold mib
    omega
  have hloop : wp user (copyLoop env withTask target content.length (data.chunks mib) 0) _ _ s' :=
    wp_and (wp_copyLoop hlen hopen)
      (steps_copyLoop (S := fun q => env.abspath q = env.abspath target) (fun q hq => hq) s')
  have hsrc : s'.world.sourceData env source = data := by simp [World.sourceData, hdata]
  rw [hsrc]
  refine wp_mono hloop (fun _ s₁ h => ?_) fun _ _ h => h.1
  obtain ⟨⟨htarget, -⟩, htouch⟩ := h
  rw [hasks, List.nil_append] at htarget
  refine ⟨data, ?_, hother, fun hnever => ?_, fun k hk hfirst => ?_⟩
  · by_cases hpath : env.abspath source = env.abspath target
    · rw [hsame hpath] at htarget ⊢
      rw [World.read, hpath]
      exact htarget
    · rw [htouch.read source hpath, hdata]
  · rw [htarget, untilStop_of_never hnever, Str.flatten_chunks hmib]
  · rw [htarget, untilStop_of_first hk hfirst, Str.take_chunks hmib]

/-- A copy with a task that is not cancelled in it is complete. -/
theorem copyFile_value {source target content : Str}
    (hread : s.world.read env source = some content) (hne : env.abspath source ≠ env.abspath target) :
    wp user (copyFile env source target true)
      (fun _ s' => s'.cancelled = false → s'.world.read env target = some content)
      (fun _ _ => True) s := by
  have hmib : 0 < mib := by decide
  unfold copyFile
  simp only [wp_bind, wp_get, World.sourceSize, hread, wp_when_true, wp_setSize, wp_io, put, wp_modify]
  refine ⟨fun _ => ⟨fun _ => ?_, fun _ _ => trivial⟩, fun _ _ => trivial⟩
  generalize hs' : St.map _ _ = s'
  have hdata : s'.world.sourceData env source = content := by
    rw [← hs']
    simp [World.sourceData, World.read_write_of_ne hne, hread]
  have hopen : s'.world.read env target = some [] := by
    rw [← hs']
    simp
  have hlen : 0 + (content.chunks mib).length ≤ content.length := by
    rw [Str.length_chunks hmib]
    unfold mib
    omega
  rw [hdata]
  refine wp_mono (wp_copyLoop hlen hopen) (fun _ s₁ h hlive => ?_) fun _ _ _ => trivial
  rw [h.1, untilStop_of_never (h.2 hlive), Str.flatten_chunks hmib, List.nil_append]

/-- One byte more than a chunk. -/
def twoChunks : Str := List.replicate (mib + 1) 'x'

theorem length_twoChunks : (twoChunks.chunks mib).length = 2 := by
  rw [Str.length_chunks (by decide), twoChunks, List.length_replicate]
  decide

def twoChunksWorld : St World :=
  ⟨{ (default : World) with file := fun p => if p = "D:\\linux".toList then some twoChunks else none },
    false, 0⟩

theorem asks_second : FirstAsks (asks (fun k => k = 1) true twoChunksWorld) 1 :=
  ⟨fun j hj => by obtain rfl : j = 0 := (by omega); rfl, rfl⟩

/-- The whole file without a stop, and its first chunk if the second report asks to stop. -/
theorem copyFile_copies_twoChunks :
    wp (fun _ => false) (copyFile default "D:\\linux".toList "C:\\linux".toList true)
      (fun _ s' => s'.world.read default "C:\\linux".toList = some twoChunks) (FileError default)
      twoChunksWorld ∧
    wp (fun k => k = 1) (copyFile default "D:\\linux".toList "C:\\linux".toList true)
      (fun _ s' => s'.world.read default "C:\\linux".toList = some (twoChunks.take mib))
      (FileError default) twoChunksWorld := by
  have hread : twoChunksWorld.world.read default "D:\\linux".toList = some twoChunks := rfl
  have hno : ∀ k, asks (fun _ => false) true twoChunksWorld k = false := fun _ => rfl
  have hask := asks_second
  have hlen := length_twoChunks
  generalize twoChunksWorld = s at *
  generalize twoChunks = content at *
  refine ⟨wp_mono (copyFile_copies hread) (fun _ s' h => ?_) fun _ _ h => h,
    wp_mono (copyFile_copies hread) (fun _ s' h => ?_) fun _ _ h => h⟩
  · obtain ⟨data, -, hother, hnever, -⟩ := h
    rw [hnever fun k _ => hno k, hother (by decide)]
  · obtain ⟨data, -, hother, -, hfirst⟩ := h
    obtain rfl := hother (by decide)
    rw [hfirst 1 (by omega) hask, Nat.one_mul]

/-! ## `get_file_md5` -/

/-- The rounds suffice for the data that is left. -/
theorem wp_md5Loop_stop {i : Nat} {data : List Str} {n : Nat} {acc : Str}
    (hle : data.length ≤ i) :
    wp user (md5Loop env withTask i data n acc)
      (fun r _ => ((∀ k < data.length, asks user withTask s k = false) →
          r = some (env.md5 (acc ++ data.flatten))) ∧
        ((∃ k < data.length, asks user withTask s k = true) → r = none)) (FileError env) s := by
  induction data generalizing i n acc s with
  | nil =>
    cases i with
    | zero => simp [md5Loop, wp_when_finish]
    | succ i =>
      simp only [md5Loop, wp_bind, wp_io, wp_when_finish, wp_pure]
      refine ⟨fun _ => ⟨fun _ => by simp, fun hex => ?_⟩, fun e he => ⟨_, he⟩⟩
      obtain ⟨k, hk, -⟩ := hex
      simp at hk
  | cons c cs ih =>
    cases i with
    | zero => simp at hle
    | succ i =>
      simp only [md5Loop, wp_bind, wp_io, wp_report, wp_ite, wp_pure, asks_map]
      refine ⟨fun _ => ⟨fun hask => ⟨fun hnever => ?_, fun _ => trivial⟩, fun hgo => ?_⟩,
        fun e he => ⟨_, he⟩⟩
      · rw [hnever 0 (by simp)] at hask
        cases hask
      · have hask : asks user withTask s 0 = false := by simpa using hgo
        generalize hs' : reported _ _ _ = s'
        have hanswers : asks user withTask s' = fun k => asks user withTask s (k + 1) := by
          rw [← hs']
          exact asks_reported (s := s.map (World.advance 1)) hask
        have hrest : wp user (md5Loop env withTask i cs (n + 1) (acc ++ c)) _ _ s' :=
          ih (by simpa using hle)
        rw [hanswers] at hrest
        refine wp_mono hrest (fun r _ h => ⟨fun hnever => ?_, fun hex => ?_⟩) fun _ _ h => h
        · rw [h.1 fun k hk => hnever (k + 1) (by simpa using hk)]
          simp
        · obtain ⟨k, hk, hstop⟩ := hex
          cases k with
          | zero => rw [hask] at hstop; cases hstop
          | succ k => exact h.2 ⟨k, by simpa using hk, hstop⟩

/-- A hash that is returned is the hash of the file. -/
theorem getFileMd5_value {p : Str} :
    wp user (getFileMd5 env p withTask)
      (fun r _ => ∀ h, r = some h → ∃ content, s.world.read env p = some content ∧ h = env.md5 content)
      (fun _ _ => True) s := by
  have hmib : 0 < mib := by decide
  unfold getFileMd5
  rw [wp_bind, wp_get]
  split
  · intro h hh
    cases hh
  · rename_i content hread
    have hread : s.world.read env p = some content := by
      split at hread
      · cases hread
      · exact hread
    simp only [wp_bind, wp_when_setSize, wp_io]
    refine ⟨fun _ => ?_, fun _ _ => trivial⟩
    have hle : (content.chunks mib).length ≤ content.length / mib + 1 := by
      rw [Str.length_chunks hmib]
      unfold mib
      omega
    refine wp_mono (wp_md5Loop_stop hle) (fun r _ hr h hh => ⟨content, hread, ?_⟩) fun _ _ _ => trivial
    subst hh
    have hnever : ∀ k < (content.chunks mib).length,
        asks user withTask (s.map (World.advance 1)) k = false := by
      intro k hk
      refine Bool.eq_false_iff.2 fun hask => ?_
      cases hr.2 ⟨k, hk, hask⟩
    have hval := Option.some.inj (hr.1 hnever)
    rwa [Str.flatten_chunks hmib, List.nil_append] at hval

/-- `n / MiB + 1` rounds read every chunk. -/
theorem getFileMd5_whole {p content : Str} (hp : p ≠ [])
    (hread : s.world.read env p = some content) :
    wp user (getFileMd5 env p withTask)
      (fun r _ => ((∀ k < (content.chunks mib).length, asks user withTask s k = false) →
          r = some (env.md5 content)) ∧
        ((∃ k < (content.chunks mib).length, asks user withTask s k = true) → r = none))
      (FileError env) s := by
  have hmib : 0 < mib := by decide
  have hle : (content.chunks mib).length ≤ content.length / mib + 1 := by
    rw [Str.length_chunks hmib]
    unfold mib
    omega
  simp only [getFileMd5, wp_bind, wp_get, hp, if_false, hread, wp_when_setSize, wp_io]
  refine ⟨fun _ => ?_, fun e he => ⟨_, he⟩⟩
  have hloop : wp user (md5Loop env withTask (content.length / mib + 1) (content.chunks mib) 0 [])
      _ _ (s.map (World.advance 1)) := wp_md5Loop_stop hle
  rw [asks_map, List.nil_append, Str.flatten_chunks hmib] at hloop
  exact hloop

/-- Two chunks are hashed together, and a stop at the second gives None. -/
theorem getFileMd5_whole_twoChunks :
    wp (fun _ => false) (getFileMd5 default "D:\\linux".toList true)
      (fun r _ => r = some ((default : Env).md5 twoChunks)) (FileError default) twoChunksWorld ∧
    wp (fun k => k = 1) (getFileMd5 default "D:\\linux".toList true) (fun r _ => r = none)
      (FileError default) twoChunksWorld := by
  have hread : twoChunksWorld.world.read default "D:\\linux".toList = some twoChunks := rfl
  have hno : ∀ k, asks (fun _ => false) true twoChunksWorld k = false := fun _ => rfl
  have hask := asks_second.2
  have hlen := length_twoChunks
  generalize twoChunksWorld = s at *
  generalize twoChunks = content at *
  exact ⟨wp_mono (getFileMd5_whole (by decide) hread) (fun _ _ h => h.1 fun k _ => hno k) fun _ _ h => h,
    wp_mono (getFileMd5_whole (by decide) hread) (fun _ _ h => h.2 ⟨1, by omega, hask⟩) fun _ _ h => h⟩

end

end Wubi.Backend
