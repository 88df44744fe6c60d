import Mathlib.Data.List.Nodup
import PiMono.CodingAgent.AuthReads

/-!
# Reads are not older than the writes of the process

What a call has read of the file stays what it was when the lock is released. `sound` says where
that is too late: a read that joins a reload from before a write that has resolved, and a call
that changes `readState` after it. `reads_fresh` is about all other runs.
-/

namespace PiMono.CodingAgent.AuthReads

open LockedUpdates

variable {π γ : Type}

/-! ## What a call knows of the file -/

def Outcome.content : Outcome π γ → Option (Content π γ)
  | updated data _ _ | loaded data => some data
  | failed _ => none

/-- The call changes `readState` when it goes on. -/
def Outcome.isUpdate : Outcome π γ → Bool
  | updated _ _ _ => true
  | _ => false

namespace Phase

def outcome : Phase π γ → Option (Outcome π γ)
  | acquiring | working _ => none
  | releasing outcome | released outcome | settled outcome => some outcome

/-- What the call has read or written. -/
def content : Phase π γ → Option (Content π γ)
  | acquiring => none
  | working current => some current
  | releasing outcome | released outcome | settled outcome => outcome.content

end Phase

/-- The call has thrown because its signal is aborted. -/
def Call.failedByAbort (call : Call π γ) : Prop := call.phase.outcome = some (.failed true)

/-- The call throws nothing any more. -/
def Call.isUpdate (call : Call π γ) : Prop :=
  ∃ outcome ∈ call.phase.outcome, outcome.isUpdate = true

/-- The reader waits for the reload. -/
def Reader.waitsFor (i : Nat) (reader : Reader π γ) : Bool :=
  match reader.reading with
  | .waiting j => i = j
  | _ => false

/-! ## The condition -/

/-- A read joins no reload that has read the file before a write that has resolved; and no call
changes `readState` to what the file was before a write that has resolved. -/
def sound (s : State π γ) : Action π γ → Bool
  | .read _ =>
    s.revision = some s.file.version ||
      s.reload.all fun i => (s.calls[i]?).all fun call =>
        call.phase.content.all fun data => s.resolved ≤ data.version
  | .finish i =>
    (s.calls[i]?).all fun call =>
      match call.phase with
      | .released (.updated data _ _) => s.resolved ≤ data.version
      | _ => true
  | _ => true

/-- A run in which every step is sound. -/
def runSound [DecidableEq π] (s : State π γ) (actions : List (Action π γ)) : Option (State π γ) :=
  actions.foldlM (fun s a => if sound s a then step s a else none) s

/-! ## The invariant -/

/-- This is what the file was at that revision. -/
def Written (s : State π γ) (data : Content π γ) : Prop := s.written[data.version]? = some data.data

/-- A call that can still throw has changed nothing. -/
structure CallInv (s : State π γ) (i : Nat) (call : Call π γ) : Prop where
  content : ∀ data ∈ call.phase.content, Written s data
  failed : call.failedByAbort → call.aborted = true
  touched : i ∈ s.touched → call.kind = .reload ∨ call.isUpdate

/-- The reload is not aborted; if it has read the file, then not too early. -/
structure WaitInv (s : State π γ) (after i : Nat) : Prop where
  resolved : after ≤ s.resolved
  reload : ∃ call, s.calls[i]? = some call ∧ call.kind = .reload ∧ call.aborted = false ∧
    ∀ data ∈ call.phase.content, after ≤ data.version

def ReaderInv (s : State π γ) (reader : Reader π γ) : Prop :=
  match reader.reading with
  | .waiting i => WaitInv s reader.after i
  | .returned data => reader.after ≤ data.version ∧ Written s data
  | .aborted => True
  | .rejected byAbort => byAbort = false

theorem ReaderInv.mono {s t : State π γ} {reader : Reader π γ} (h : ReaderInv s reader)
    (hwritten : ∀ data, Written s data → Written t data)
    (hwait : ∀ i, WaitInv s reader.after i → WaitInv t reader.after i) : ReaderInv t reader := by
  unfold ReaderInv at h ⊢
  split at h
  · exact hwait _ h
  · exact ⟨h.1, hwritten _ h.2⟩
  · trivial
  · exact h

structure Inv (s : State π γ) : Prop where
  file : Written s s.file
  length : s.written.length = s.file.version + 1
  snapshot : Written s s.snapshot
  resolved : s.resolved ≤ s.snapshot.version
  calls : ∀ i call, s.calls[i]? = some call → CallInv s i call
  touched : ∀ i ∈ s.touched, i < s.calls.length
  reload : ∀ i, s.reload = some i →
    ∃ call, s.calls[i]? = some call ∧ call.kind = .reload ∧ call.aborted = false
  readers : ∀ reader ∈ s.readers, ReaderInv s reader
  counted : ∀ i call, s.calls[i]? = some call → call.readers = s.readers.countP (·.waitsFor i)

theorem inv_initial (first : π → Option γ) : Inv (initial first) where
  file := rfl
  length := rfl
  snapshot := rfl
  resolved := Nat.le_refl 0
  calls := fun _ _ h => by cases h
  touched := fun _ h => by cases h
  reload := fun _ h => by cases h
  readers := fun _ h => by cases h
  counted := fun _ _ h => by cases h

section Steps

variable {s : State π γ} {i : Nat} {call call' : Call π γ}

theorem setCall_calls (hi : s.calls[i]? = some call) (j : Nat) :
    (s.setCall i call').calls[j]? = if i = j then some call' else s.calls[j]? := by
  obtain ⟨hlt, -⟩ := List.getElem?_eq_some_iff.mp hi
  show (s.calls.set i call')[j]? = _
  rw [List.getElem?_set, if_pos hlt]

/-- What the file was once stays written. -/
theorem Written.version_le (h : Inv s) {data : Content π γ} (hdata : Written s data) :
    data.version ≤ s.file.version := by
  obtain ⟨hlt, -⟩ := List.getElem?_eq_some_iff.mp hdata
  have hlength := h.length
  omega

theorem Inv.resolved_le (h : Inv s) : s.resolved ≤ s.file.version :=
  Nat.le_trans h.resolved (h.snapshot.version_le h)

/-- A call goes on; what it newly knows of the file is not too old. -/
theorem Inv.setCall (h : Inv s) (hi : s.calls[i]? = some call) (hkind : call'.kind = call.kind)
    (hreaders : call'.readers = call.readers)
    (haborted : call.kind = .reload → call'.aborted = call.aborted) (hcall : CallInv s i call')
    (hcontent : ∀ data ∈ call'.phase.content, data ∈ call.phase.content ∨ s.resolved ≤
      data.version) :
    Inv (s.setCall i call') where
  file := h.file
  length := h.length
  snapshot := h.snapshot
  resolved := h.resolved
  calls := fun j other hj => by
    rw [setCall_calls hi] at hj
    split at hj
    · rename_i hij
      cases hj
      exact hij ▸ ⟨hcall.content, hcall.failed, hcall.touched⟩
    · have hother := h.calls j other hj
      exact ⟨hother.content, hother.failed, hother.touched⟩
  touched := fun j hj => Nat.lt_of_lt_of_eq (h.touched j hj) List.length_set.symm
  reload := fun j hj => by
    obtain ⟨other, hother, hreload, hrunning⟩ := h.reload j hj
    rw [setCall_calls hi]
    by_cases hij : i = j
    · subst hij
      rw [hi] at hother
      cases hother
      rw [if_pos rfl]
      exact ⟨call', rfl, hkind.trans hreload, (haborted hreload).trans hrunning⟩
    · rw [if_neg hij]
      exact ⟨other, hother, hreload, hrunning⟩
  readers := fun reader hreader => (h.readers reader hreader).mono (fun _ hdata => hdata)
    fun j hwait =>
    ⟨hwait.resolved, by
      obtain ⟨other, hother, hreload, hrunning, hread⟩ := hwait.reload
      rw [setCall_calls hi]
      by_cases hij : i = j
      · subst hij
        rw [hi] at hother
        cases hother
        rw [if_pos rfl]
        refine ⟨call', rfl, hkind.trans hreload, (haborted hreload).trans hrunning, ?_⟩
        intro data hdata
        rcases hcontent data hdata with hold | hnew
        · exact hread data hold
        · exact Nat.le_trans hwait.resolved hnew
      · rw [if_neg hij]
        exact ⟨other, hother, hreload, hrunning, hread⟩⟩
  counted := fun j other hj => by
    rw [setCall_calls hi] at hj
    split at hj
    · rename_i hij
      cases hj
      rw [hreaders, h.counted i call hi, hij]
      rfl
    · exact h.counted j other hj

theorem Inv.setLock (h : Inv s) (lock : Option (Option Nat)) : Inv (s.setLock lock) where
  file := h.file
  length := h.length
  snapshot := h.snapshot
  resolved := h.resolved
  calls := fun i call hi =>
    ⟨(h.calls i call hi).content, (h.calls i call hi).failed, (h.calls i call hi).touched⟩
  touched := h.touched
  reload := h.reload
  readers := fun reader hreader =>
    (h.readers reader hreader).mono (fun _ hdata => hdata) fun _ hwait =>
    ⟨hwait.resolved, hwait.reload⟩
  counted := h.counted

theorem Inv.updateReadState (h : Inv s) {data : Content π γ} (hdata : Written s data)
    (hresolved : s.resolved ≤ data.version) (revision : Option Nat) :
    Inv (s.updateReadState data revision) where
  file := h.file
  length := h.length
  snapshot := hdata
  resolved := hresolved
  calls := fun i call hi =>
    ⟨(h.calls i call hi).content, (h.calls i call hi).failed, (h.calls i call hi).touched⟩
  touched := h.touched
  reload := h.reload
  readers := fun reader hreader =>
    (h.readers reader hreader).mono (fun _ hdata => hdata) fun _ hwait =>
    ⟨hwait.resolved, hwait.reload⟩
  counted := h.counted

/-- What was written before stays in its place. -/
theorem Written.writeFile {data : Content π γ} (hdata : Written s data) (next : π → Option γ) :
    Written (s.writeFile next) data := by
  obtain ⟨hlt, -⟩ := List.getElem?_eq_some_iff.mp hdata
  show (s.written ++ [next])[data.version]? = _
  rw [List.getElem?_append_left hlt]
  exact hdata

theorem Inv.writeFile (h : Inv s) (next : π → Option γ) : Inv (s.writeFile next) where
  file := by
    show (s.written ++ [next])[s.file.version + 1]? = some next
    rw [← h.length]
    exact List.getElem?_concat_length
  length := by
    show (s.written ++ [next]).length = s.file.version + 1 + 1
    rw [List.length_append, h.length]
    rfl
  snapshot := h.snapshot.writeFile next
  resolved := h.resolved
  calls := fun i call hi =>
    ⟨fun data hdata => ((h.calls i call hi).content data hdata).writeFile next,
      (h.calls i call hi).failed, (h.calls i call hi).touched⟩
  touched := h.touched
  reload := h.reload
  readers := fun reader hreader =>
    (h.readers reader hreader).mono (fun _ hdata => hdata.writeFile next) fun _ hwait =>
      ⟨hwait.resolved, hwait.reload⟩
  counted := h.counted

/-- A reload, and a call that throws nothing any more, may change something. -/
theorem Inv.touch (h : Inv s) (hi : s.calls[i]? = some call)
    (hcall : call.kind = .reload ∨ call.isUpdate) : Inv (s.touch i) where
  file := h.file
  length := h.length
  snapshot := h.snapshot
  resolved := h.resolved
  calls := fun j other hj =>
    ⟨(h.calls j other hj).content, (h.calls j other hj).failed, fun htouched => by
      rcases List.mem_append.mp htouched with hold | hnew
      · exact (h.calls j other hj).touched hold
      · rw [List.mem_singleton.mp hnew] at hj
        cases hi.symm.trans hj
        exact hcall⟩
  touched := fun j hj => by
    rcases List.mem_append.mp hj with hold | hnew
    · exact h.touched j hold
    · rw [List.mem_singleton.mp hnew]
      exact (List.getElem?_eq_some_iff.mp hi).1
  reload := h.reload
  readers := fun reader hreader =>
    (h.readers reader hreader).mono (fun _ hdata => hdata) fun _ hwait =>
    ⟨hwait.resolved, hwait.reload⟩
  counted := h.counted

theorem Inv.resolve (h : Inv s) {version : Nat} (hversion : version ≤ s.snapshot.version) :
    Inv (s.resolve version) where
  file := h.file
  length := h.length
  snapshot := h.snapshot
  resolved := Nat.max_le.mpr ⟨h.resolved, hversion⟩
  calls := fun i call hi =>
    ⟨(h.calls i call hi).content, (h.calls i call hi).failed, (h.calls i call hi).touched⟩
  touched := h.touched
  reload := h.reload
  readers := fun reader hreader =>
    (h.readers reader hreader).mono (fun _ hdata => hdata) fun _ hwait =>
      ⟨Nat.le_trans hwait.resolved (Nat.le_max_left ..), hwait.reload⟩
  counted := h.counted

theorem Inv.clearReload (h : Inv s) (i : Nat) : Inv (s.clearReload i) := by
  unfold State.clearReload
  split
  · exact {
      file := h.file
      length := h.length
      snapshot := h.snapshot
      resolved := h.resolved
      calls := fun i call hi =>
        ⟨(h.calls i call hi).content, (h.calls i call hi).failed, (h.calls i call hi).touched⟩
      touched := h.touched
      reload := fun _ hj => by cases hj
      readers := fun reader hreader =>
        (h.readers reader hreader).mono (fun _ hdata => hdata) fun _ hwait =>
          ⟨hwait.resolved, hwait.reload⟩
      counted := h.counted }
  · exact h

theorem addCall_calls {kind : Kind π} (hi : (s.addCall kind).calls[i]? = some call) :
    s.calls[i]? = some call ∨ s.calls.length ≤ i ∧ call = ⟨kind, .acquiring, false, 0⟩ := by
  have hi' : (s.calls ++ [_])[i]? = some call := hi
  rw [List.getElem?_append] at hi'
  split at hi'
  · exact .inl hi'
  · rename_i hge
    rw [List.getElem?_singleton] at hi'
    split at hi'
    · exact .inr ⟨Nat.le_of_not_lt hge, (Option.some.inj hi').symm⟩
    · cases hi'

theorem addCall_keeps (hi : s.calls[i]? = some call) (kind : Kind π) :
    (s.addCall kind).calls[i]? = some call := by
  show (s.calls ++ [_])[i]? = _
  rw [List.getElem?_append_left (List.getElem?_eq_some_iff.mp hi).1]
  exact hi

/-- Whom a reader waits for has been called. -/
theorem Inv.waitsFor_lt (h : Inv s) {reader : Reader π γ} (hreader : reader ∈ s.readers)
    (hwaits : reader.waitsFor i = true) : i < s.calls.length := by
  have hinv := h.readers reader hreader
  unfold ReaderInv at hinv
  unfold Reader.waitsFor at hwaits
  split at hwaits
  · rename_i j hreading
    rw [hreading] at hinv
    obtain ⟨other, hother, -⟩ := hinv.reload
    rw [of_decide_eq_true hwaits]
    exact (List.getElem?_eq_some_iff.mp hother).1
  · cases hwaits

/-- A new call has read nothing, and nobody waits for it. -/
theorem Inv.addCall (h : Inv s) (kind : Kind π) : Inv (s.addCall kind) where
  file := h.file
  length := h.length
  snapshot := h.snapshot
  resolved := h.resolved
  calls := fun i call hi => by
    rcases addCall_calls hi with hold | ⟨hge, rfl⟩
    · exact ⟨(h.calls i call hold).content, (h.calls i call hold).failed,
        (h.calls i call hold).touched⟩
    · exact ⟨nofun, nofun, fun htouched => absurd (h.touched i htouched) (Nat.not_lt.mpr hge)⟩
  touched := fun i hi => by
    show i < (s.calls ++ [_]).length
    rw [List.length_append]
    exact Nat.lt_of_lt_of_le (h.touched i hi) (Nat.le_add_right ..)
  reload := fun i hi => by
    obtain ⟨call, hcall, hrest⟩ := h.reload i hi
    exact ⟨call, addCall_keeps hcall kind, hrest⟩
  readers := fun reader hreader =>
    (h.readers reader hreader).mono (fun _ hdata => hdata) fun i hwait => ⟨hwait.resolved, by
      obtain ⟨call, hcall, hrest⟩ := hwait.reload
      exact ⟨call, addCall_keeps hcall kind, hrest⟩⟩
  counted := fun i call hi => by
    rcases addCall_calls hi with hold | ⟨hge, rfl⟩
    · exact h.counted i call hold
    · refine (List.countP_eq_zero.mpr fun reader hreader hwaits => ?_).symm
      exact absurd (h.waitsFor_lt hreader hwaits) (Nat.not_lt.mpr hge)

/-! ## Readers -/

/-- Readers come to a reload or leave it; when it is aborted, nobody waits for it any more. -/
theorem Inv.setReaders (h : Inv s) {readers : List (Reader π γ)} {reload : Option Nat}
    (call' : Call π γ) (hi : s.calls[i]? = some call) (hkind : call'.kind = call.kind)
    (hphase : call'.phase = call.phase) (haborted : call.aborted = true → call'.aborted = true)
    (hleft : call'.aborted = true →
      (∀ reader ∈ readers, reader.waitsFor i = false) ∧ reload ≠ some i)
    (hreload : ∀ j, reload = some j → s.reload = some j)
    (hreaders : ∀ reader ∈ readers, ReaderInv s reader)
    (hcounted : call'.readers = readers.countP (·.waitsFor i))
    (hothers : ∀ j, i ≠ j → readers.countP (·.waitsFor j) = s.readers.countP (·.waitsFor j)) :
    Inv { s.setCall i call' with readers, reload } where
  file := h.file
  length := h.length
  snapshot := h.snapshot
  resolved := h.resolved
  calls := fun j other hj => by
    rw [show _ = _ from setCall_calls hi j] at hj
    split at hj
    · rename_i hij
      cases hj
      have hcall := h.calls i call hi
      refine hij ▸ ⟨hphase ▸ hcall.content, fun hfailed => haborted (hcall.failed ?_),
        fun htouched => ?_⟩
      · unfold Call.failedByAbort at hfailed ⊢
        rw [← hphase]
        exact hfailed
      · have hkept := hcall.touched htouched
        unfold Call.isUpdate at hkept ⊢
        rw [hkind, hphase]
        exact hkept
    · have hother := h.calls j other hj
      exact ⟨hother.content, hother.failed, hother.touched⟩
  touched := fun j hj => Nat.lt_of_lt_of_eq (h.touched j hj) List.length_set.symm
  reload := fun j hj => by
    obtain ⟨other, hother, hotherkind, hrunning⟩ := h.reload j (hreload j hj)
    rw [show _ = _ from setCall_calls hi j]
    by_cases hij : i = j
    · subst hij
      cases hi.symm.trans hother
      rw [if_pos rfl]
      refine ⟨call', rfl, hkind.trans hotherkind, Bool.eq_false_iff.mpr fun habort => ?_⟩
      exact (hleft habort).2 hj
    · rw [if_neg hij]
      exact ⟨other, hother, hotherkind, hrunning⟩
  readers := fun reader hreader => by
    have hinv := hreaders reader hreader
    unfold ReaderInv at hinv ⊢
    split at hinv
    · rename_i j hreading
      refine ⟨hinv.resolved, ?_⟩
      obtain ⟨other, hother, hotherkind, hrunning, hread⟩ := hinv.reload
      rw [show _ = _ from setCall_calls hi j]
      by_cases hij : i = j
      · subst hij
        cases hi.symm.trans hother
        rw [if_pos rfl, ← hphase] at *
        refine ⟨call', rfl, hkind.trans hotherkind, Bool.eq_false_iff.mpr fun habort => ?_, hread⟩
        have hwaits := (hleft habort).1 reader hreader
        rw [Reader.waitsFor, hreading] at hwaits
        exact of_decide_eq_false hwaits rfl
      · rw [if_neg hij]
        exact ⟨other, hother, hotherkind, hrunning, hread⟩
    · exact hinv
    · trivial
    · exact hinv
  counted := fun j other hj => by
    rw [show _ = _ from setCall_calls hi j] at hj
    split at hj
    · rename_i hij
      cases hj
      exact hij ▸ hcounted
    · rename_i hij
      rw [h.counted j other hj]
      exact (hothers j hij).symm

/-- A reader joins a reload that has not read the file too early. -/
theorem Inv.join {t : State π γ} (h : Inv s) {signal : Bool} (hreload : s.reload = some i)
    (hsound : ∀ call, s.calls[i]? = some call → ∀ data ∈ call.phase.content, s.resolved ≤
      data.version)
    (hstep : AuthReads.join s signal i = some t) : Inv t := by
  obtain ⟨call, hi, rfl⟩ := Option.map_eq_some_iff.mp hstep
  obtain ⟨other, hother, hkind, hrunning⟩ := h.reload i hreload
  cases hi.symm.trans hother
  refine h.setReaders { call with readers := call.readers + 1 } hi rfl rfl id ?_ (fun j hj => hj)
    ?_ ?_ ?_
  · intro habort
    rw [hrunning] at habort
    cases habort
  · intro reader hreader
    rcases List.mem_append.mp hreader with hold | hnew
    · exact h.readers reader hold
    · rw [List.mem_singleton.mp hnew]
      exact ⟨Nat.le_refl _, call, hi, hkind, hrunning, hsound call hi⟩
  · show call.readers + 1 = _
    rw [List.countP_append, h.counted i call hi, List.countP_singleton, Reader.waitsFor,
      if_pos (decide_eq_true rfl)]
    rfl
  · intro j hij
    show (s.readers ++ [_]).countP _ = _
    rw [List.countP_append, List.countP_singleton, Reader.waitsFor, if_neg]
    · rfl
    · exact fun hji => hij (of_decide_eq_true hji).symm

/-- A reader waits no longer; the last one aborts the reload. -/
theorem Inv.leaveReload (h : Inv s) {r : Nat} {reader reader' : Reader π γ}
    (hr : s.readers[r]? = some reader) (hreading : reader.reading = .waiting i)
    (hreader : ReaderInv s reader') (hdone : ∀ j, reader'.waitsFor j = false) :
    Inv (AuthReads.leaveReload (s.setReader r reader') i) := by
  obtain ⟨hlt, hget⟩ := List.getElem?_eq_some_iff.mp hr
  have hinv := h.readers reader (List.mem_of_getElem? hr)
  rw [ReaderInv, hreading] at hinv
  obtain ⟨call, hi, hkind, hrunning, -⟩ := hinv.reload
  have hreaders : ∀ other ∈ s.readers.set r reader', ReaderInv s other := by
    intro other hother
    rcases List.mem_or_eq_of_mem_set hother with hold | rfl
    · exact h.readers other hold
    · exact hreader
  have hcount : ∀ j, (s.readers.set r reader').countP (·.waitsFor j)
      = s.readers.countP (·.waitsFor j) - if i = j then 1 else 0 := by
    intro j
    have hwaits : reader.waitsFor j = decide (j = i) := by rw [Reader.waitsFor, hreading]
    rw [List.countP_set hlt, hget, hdone j, hwaits, if_neg Bool.false_ne_true]
    by_cases hij : i = j
    · rw [if_pos hij, if_pos (decide_eq_true hij.symm)]
      rfl
    · rw [if_neg hij, if_neg fun hji => hij (of_decide_eq_true hji).symm]
      rfl
  have hcounted : call.readers - 1 = (s.readers.set r reader').countP (·.waitsFor i) := by
    rw [hcount i, if_pos rfl, h.counted i call hi]
  have hothers : ∀ j, i ≠ j →
      (s.readers.set r reader').countP (·.waitsFor j) = s.readers.countP (·.waitsFor j) := by
    intro j hij
    rw [hcount j, if_neg hij]
    rfl
  unfold AuthReads.leaveReload
  rw [show (s.setReader r reader').calls[i]? = some call from hi]
  dsimp only
  split
  · rename_i hlast
    refine h.setReaders { call with readers := call.readers - 1, aborted := true } hi rfl rfl
      (fun _ => rfl) (fun _ => ⟨?_, nofun⟩) nofun hreaders hcounted hothers
    intro other hother
    rw [hlast.1] at hcounted
    exact Bool.eq_false_iff.mpr (List.countP_eq_zero.mp hcounted.symm other hother)
  · refine h.setReaders { call with readers := call.readers - 1 } hi rfl rfl id (fun habort => ?_)
      (fun j hj => hj) hreaders hcounted hothers
    rw [hrunning] at habort
    cases habort

/-- A reader that is answered at once. -/
theorem Inv.addReader (h : Inv s) {reader : Reader π γ} (hreader : ReaderInv s reader)
    (hdone : ∀ j, reader.waitsFor j = false) : Inv { s with readers := s.readers ++ [reader] } where
  file := h.file
  length := h.length
  snapshot := h.snapshot
  resolved := h.resolved
  calls := fun i call hi =>
    ⟨(h.calls i call hi).content, (h.calls i call hi).failed, (h.calls i call hi).touched⟩
  touched := h.touched
  reload := h.reload
  readers := fun other hother => by
    have hinv : ReaderInv s other := by
      rcases List.mem_append.mp hother with hold | hnew
      · exact h.readers other hold
      · rw [List.mem_singleton.mp hnew]
        exact hreader
    exact hinv.mono (fun _ hdata => hdata) fun _ hwait => ⟨hwait.resolved, hwait.reload⟩
  counted := fun j other hj => by
    show _ = (s.readers ++ [reader]).countP _
    rw [List.countP_append, List.countP_singleton, hdone j, if_neg Bool.false_ne_true]
    exact h.counted j other hj

theorem Inv.read {t : State π γ} (h : Inv s) {signal : Bool}
    (hsound : sound s (.read signal) = true)
    (hstep : AuthReads.read s signal = some t) : Inv t := by
  unfold AuthReads.read at hstep
  split at hstep
  · cases hstep
    exact h.addReader ⟨h.resolved, h.snapshot⟩ fun _ => rfl
  · rename_i hrevision
    unfold sound at hsound
    rw [decide_eq_false hrevision, Bool.false_or] at hsound
    split at hstep
    · rename_i i hreload
      rw [hreload] at hsound
      refine h.join hreload (fun call hi data hdata => ?_) hstep
      rw [Option.all_some, hi, Option.all_some] at hsound
      rw [show call.phase.content = some data from hdata] at hsound
      exact of_decide_eq_true hsound
    · -- a reload of its own has read nothing yet
      have hcalls : (s.addCall (.reload : Kind π)).calls[s.calls.length]?
          = some ⟨.reload, .acquiring, false, 0⟩ := List.getElem?_concat_length
      have hadd : Inv { s.addCall (.reload : Kind π) with reload := some s.calls.length } := by
        have hcall := h.addCall .reload
        exact {
          file := hcall.file
          length := hcall.length
          snapshot := hcall.snapshot
          resolved := hcall.resolved
          calls := fun i call hi =>
            ⟨(hcall.calls i call hi).content, (hcall.calls i call hi).failed,
              (hcall.calls i call hi).touched⟩
          touched := hcall.touched
          reload := fun i hi => by
            cases hi
            exact ⟨_, hcalls, rfl, rfl⟩
          readers := fun reader hreader =>
            (hcall.readers reader hreader).mono (fun _ hdata => hdata) fun _ hwait =>
              ⟨hwait.resolved, hwait.reload⟩
          counted := hcall.counted }
      refine hadd.join rfl (fun call hi data hdata => ?_) hstep
      cases hcalls.symm.trans hi
      cases hdata

/-! ## Calls -/

/-- A call that has thrown has changed nothing. -/
theorem CallInv.failed_of (h : CallInv s i call) {aborted : Bool} {phase : Phase π γ}
    (hphase : phase.outcome = some (.failed aborted)) (hcontent : phase.content = none)
    (haborted : aborted = true → call.aborted = true) (hbefore : ¬ call.isUpdate) :
    CallInv s i { call with phase } where
  content := fun data hdata => by
    rw [show ({ call with phase } : Call π γ).phase.content = none from hcontent] at hdata
    cases hdata
  failed := fun hfailed => haborted (by
    have houtcome : phase.outcome = some (.failed true) := hfailed
    rw [hphase] at houtcome
    cases houtcome
    rfl)
  touched := fun htouched => (h.touched htouched).imp_right fun hupdate => absurd hupdate hbefore

theorem Inv.fail (h : Inv s) (hi : s.calls[i]? = some call) {aborted : Bool} {phase : Phase π γ}
    (hphase : phase.outcome = some (.failed aborted)) (hcontent : phase.content = none)
    (haborted : aborted = true → call.aborted = true) (hbefore : ¬ call.isUpdate) :
    Inv (s.setCall i { call with phase }) := by
  refine h.setCall hi rfl rfl (fun _ => rfl)
    ((h.calls i call hi).failed_of hphase hcontent haborted hbefore) fun data hdata => ?_
  rw [show ({ call with phase } : Call π γ).phase.content = none from hcontent] at hdata
  cases hdata

/-- A call that has nothing to say about the file yet. -/
theorem not_isUpdate_of_outcome (h : call.phase.outcome = none) : ¬ call.isUpdate := by
  rintro ⟨outcome, houtcome, -⟩
  rw [h] at houtcome
  cases houtcome

/-- What the call has read was the file a moment ago. -/
theorem Inv.keep (h : Inv s) (phase : Phase π γ) (hi : s.calls[i]? = some call)
    (hfailed : phase.outcome ≠ some (.failed true))
    (hcontent : ∀ data ∈ phase.content, Written s data ∧
      (data ∈ call.phase.content ∨ s.resolved ≤ data.version))
    (htouched : call.isUpdate → ∃ outcome ∈ phase.outcome, outcome.isUpdate = true) :
    Inv (s.setCall i { call with phase }) := by
  refine h.setCall hi rfl rfl (fun _ => rfl) ⟨fun data hdata => (hcontent data hdata).1,
    fun hnow => absurd hnow hfailed, fun hi' => ?_⟩ fun data hdata => (hcontent data hdata).2
  exact ((h.calls i call hi).touched hi').imp_right htouched

theorem Inv.acquire (h : Inv s) (hi : s.calls[i]? = some call) (hphase : call.phase = .acquiring) :
    Inv (AuthReads.acquire s i call) := by
  have hbefore : ¬ call.isUpdate := not_isUpdate_of_outcome (by rw [hphase]; rfl)
  have hlock := h.setLock (some (some i))
  unfold AuthReads.acquire
  dsimp only
  split
  · rename_i haborted
    exact hlock.fail hi rfl rfl (fun _ => haborted) hbefore
  · have hread : Inv
      ((s.setLock (some (some i))).setCall i { call with phase := .working s.file }) :=
      hlock.keep _ hi nofun
        (fun data hdata => by
          cases hdata
          exact ⟨h.file, .inr h.resolved_le⟩)
        fun hupdate => absurd hupdate hbefore
    split
    · rename_i hkind
      refine (hread.updateReadState h.file h.resolved_le _).touch
        ((setCall_calls hi i).trans (if_pos rfl)) (.inl hkind)
    · exact hread

theorem Inv.work [DecidableEq π] (h : Inv s) (hi : s.calls[i]? = some call) {current : Content π γ}
    (hphase : call.phase = .working current) (reply : Reply γ) :
    Inv (AuthReads.work s i call current reply) := by
  have hbefore : ¬ call.isUpdate := not_isUpdate_of_outcome (by rw [hphase]; rfl)
  have hcurrent : Written s current := (h.calls i call hi).content current (by rw [hphase]; rfl)
  unfold AuthReads.work
  split
  · exact h.fail hi rfl rfl nofun hbefore
  · split
    · rename_i haborted
      exact h.fail hi rfl rfl (fun _ => haborted) hbefore
    · split
      · -- the file is written
        rename_i data hdata
        have hwrite := h.writeFile data
        have hset := hwrite.keep (.releasing (.updated (s.writeFile data).file none true)) hi nofun
          (fun written hwritten => by
            cases hwritten
            exact ⟨hwrite.file, .inr hwrite.resolved_le⟩)
          fun _ => ⟨_, rfl, rfl⟩
        exact hset.touch ((setCall_calls (s := s.writeFile data) hi i).trans (if_pos rfl))
          (.inr ⟨_, rfl, rfl⟩)
      · have hcontent : ∀ kind : Kind π, (keptOutcome s kind current).content = some current := by
          intro kind
          cases kind <;> rfl
        refine h.keep _ hi (fun hfailed => ?_) (fun data hdata => ?_) fun hupdate =>
          absurd hupdate hbefore
        · have hnone := hcontent call.kind
          rw [Option.some.inj hfailed] at hnone
          cases hnone
        · have hdata' : (keptOutcome s call.kind current).content = some data := hdata
          rw [hcontent] at hdata'
          cases hdata'
          exact ⟨hcurrent, .inl (by rw [hphase]; rfl)⟩

/-- A call whose outcome is settled goes on. -/
theorem Inv.advance (h : Inv s) (hi : s.calls[i]? = some call) {phase : Phase π γ}
    (houtcome : phase.outcome = call.phase.outcome)
    (hcontent : phase.content = call.phase.content) :
    Inv (s.setCall i { call with phase }) := by
  have hcall := h.calls i call hi
  refine h.setCall hi rfl rfl (fun _ => rfl) ⟨fun data hdata => ?_, fun hfailed => ?_,
    fun hi' => ?_⟩
    fun data hdata => ?_
  · exact hcall.content data (hcontent ▸ hdata)
  · refine hcall.failed ?_
    rw [Call.failedByAbort, ← houtcome]
    exact hfailed
  · exact (hcall.touched hi').imp_right fun hupdate => by
      obtain ⟨outcome, hmem, hisUpdate⟩ := hupdate
      exact ⟨outcome, houtcome ▸ hmem, hisUpdate⟩
  · exact .inl (hcontent ▸ hdata)

theorem Inv.finish (h : Inv s) (hi : s.calls[i]? = some call) {outcome : Outcome π γ}
    (hphase : call.phase = .released outcome) (hsound : sound s (.finish i) = true) :
    Inv (AuthReads.finish s i call outcome) := by
  have hset : Inv (s.setCall i { call with phase := .settled outcome }) :=
    h.advance hi (by rw [hphase]; rfl) (by rw [hphase]; rfl)
  unfold AuthReads.finish
  dsimp only
  split
  · rename_i data revision wrote
    have hdata : Written s data := (h.calls i call hi).content data (by rw [hphase]; rfl)
    have hresolved : s.resolved ≤ data.version := by
      unfold sound at hsound
      dsimp only at hsound
      rw [hi, Option.all_some, hphase] at hsound
      exact of_decide_eq_true hsound
    have hupdate := (hset.updateReadState hdata hresolved revision).touch
      ((setCall_calls hi i).trans (if_pos rfl)) (.inr ⟨_, rfl, rfl⟩)
    split
    · exact hupdate.resolve (Nat.le_refl _)
    · exact hupdate
  · exact hset.clearReload i

theorem Inv.abort (h : Inv s) (hi : s.calls[i]? = some call) (hkind : call.kind ≠ .reload) :
    Inv (s.setCall i { call with aborted := true }) :=
  h.setCall hi rfl rfl (fun hreload => absurd hreload hkind)
    ⟨(h.calls i call hi).content, fun _ => rfl, (h.calls i call hi).touched⟩
      fun _ hdata => .inl hdata

/-- The reload that a reader waits for has not been aborted. -/
theorem Inv.resume (h : Inv s) {r : Nat} {reader : Reader π γ} (hr : s.readers[r]? = some reader)
    (hreading : reader.reading = .waiting i) (hi : s.calls[i]? = some call) {outcome : Outcome π γ}
    (hphase : call.phase = .settled outcome) : Inv (AuthReads.resume s r reader i outcome) := by
  have hwait := h.readers reader (List.mem_of_getElem? hr)
  rw [ReaderInv, hreading] at hwait
  obtain ⟨other, hother, -, hrunning, hread⟩ := hwait.reload
  cases hi.symm.trans hother
  have hloaded : ∀ data, outcome.content = some data →
    ReaderInv s { reader with reading := .returned data } := by
    intro data hdata
    have hmem : data ∈ call.phase.content := by
      rw [hphase]
      exact hdata
    exact ⟨hread data hmem, (h.calls i call hi).content data hmem⟩
  unfold AuthReads.resume
  split
  · rename_i aborted
    refine h.leaveReload hr hreading ?_ fun j => ?_
    · cases hsignal : reader.signal with
      | true =>
        refine (Bool.eq_false_iff.mpr fun haborted => ?_ : aborted = false)
        have hfailed : call.failedByAbort := by
          rw [Call.failedByAbort, hphase, haborted]
          rfl
        rw [(h.calls i call hi).failed hfailed] at hrunning
        cases hrunning
      | false => exact ⟨Nat.le_trans hwait.resolved h.resolved, h.snapshot⟩
    · rw [Reader.waitsFor]
      cases reader.signal <;> rfl
  · exact h.leaveReload hr hreading (hloaded _ rfl) fun _ => rfl
  · exact h.leaveReload hr hreading (hloaded _ rfl) fun _ => rfl

theorem Inv.step_acquire [DecidableEq π] {t : State π γ} (h : Inv s)
    (hstep : AuthReads.step s (.acquire i) = some t) : Inv t := by
  unfold AuthReads.step at hstep
  dsimp only at hstep
  split at hstep
  · rename_i call hi _
    split at hstep
    · rename_i hphase
      cases hstep
      exact h.acquire hi hphase
    · cases hstep
  · cases hstep

theorem Inv.step_refuse [DecidableEq π] {t : State π γ} (h : Inv s)
    (hstep : AuthReads.step s (.refuse i) = some t) : Inv t := by
  unfold AuthReads.step at hstep
  dsimp only at hstep
  split at hstep
  · rename_i call hi
    split at hstep
    · rename_i hphase
      cases hstep
      exact h.fail hi rfl rfl id (not_isUpdate_of_outcome (by rw [hphase]; rfl))
    · cases hstep
  · cases hstep

theorem Inv.step_work [DecidableEq π] {t : State π γ} {reply : Reply γ} (h : Inv s)
    (hstep : AuthReads.step s (.work i reply) = some t) : Inv t := by
  unfold AuthReads.step at hstep
  dsimp only at hstep
  split at hstep
  · rename_i call hi
    split at hstep
    · rename_i hphase
      cases hstep
      exact h.work hi hphase reply
    · cases hstep
  · cases hstep

theorem Inv.step_release [DecidableEq π] {t : State π γ} (h : Inv s)
    (hstep : AuthReads.step s (.release i) = some t) : Inv t := by
  unfold AuthReads.step at hstep
  dsimp only at hstep
  split at hstep
  · rename_i call hi
    split at hstep
    · rename_i hphase
      cases hstep
      exact (h.setLock none).advance hi (by rw [hphase]; rfl) (by rw [hphase]; rfl)
    · cases hstep
  · cases hstep

theorem Inv.step_finish [DecidableEq π] {t : State π γ} (h : Inv s)
    (hsound : sound s (.finish i) = true)
    (hstep : AuthReads.step s (.finish i) = some t) : Inv t := by
  unfold AuthReads.step at hstep
  dsimp only at hstep
  split at hstep
  · rename_i call hi
    split at hstep
    · rename_i hphase
      cases hstep
      exact h.finish hi hphase hsound
    · cases hstep
  · cases hstep

theorem Inv.step_abort [DecidableEq π] {t : State π γ} (h : Inv s)
    (hstep : AuthReads.step s (.abort i) = some t) : Inv t := by
  unfold AuthReads.step at hstep
  dsimp only at hstep
  split at hstep
  · rename_i call hi
    split at hstep
    · cases hstep
    · rename_i hkind
      cases hstep
      exact h.abort hi hkind
  · cases hstep

theorem Inv.step_resume [DecidableEq π] {t : State π γ} {r : Nat} (h : Inv s)
    (hstep : AuthReads.step s (.resume r) = some t) : Inv t := by
  unfold AuthReads.step at hstep
  dsimp only at hstep
  split at hstep
  · rename_i reader hr
    split at hstep
    · rename_i i hreading
      split at hstep
      · rename_i call hi
        split at hstep
        · rename_i hphase
          cases hstep
          exact h.resume hr hreading hi hphase
        · cases hstep
      · cases hstep
    · cases hstep
  · cases hstep

theorem Inv.step_leave [DecidableEq π] {t : State π γ} {r : Nat} (h : Inv s)
    (hstep : AuthReads.step s (.leave r) = some t) : Inv t := by
  unfold AuthReads.step at hstep
  dsimp only at hstep
  split at hstep
  · rename_i reader hr
    split at hstep
    · rename_i i hreading
      split at hstep
      · cases hstep
        exact h.leaveReload hr hreading trivial fun _ => rfl
      · cases hstep
    · cases hstep
  · cases hstep

/-- One step. -/
theorem Inv.step [DecidableEq π] {t : State π γ} {action : Action π γ} (h : Inv s)
    (hsound : sound s action = true) (hstep : AuthReads.step s action = some t) : Inv t := by
  cases action with
  | read signal => exact h.read hsound hstep
  | call kind =>
    unfold AuthReads.step at hstep
    dsimp only at hstep
    split at hstep
    · cases hstep
    · cases hstep
      exact h.addCall kind
  | acquire i => exact h.step_acquire hstep
  | refuse i => exact h.step_refuse hstep
  | work i reply => exact h.step_work hstep
  | release i => exact h.step_release hstep
  | finish i => exact h.step_finish hsound hstep
  | abort i => exact h.step_abort hstep
  | resume r => exact h.step_resume hstep
  | leave r => exact h.step_leave hstep
  | reload =>
    unfold AuthReads.step at hstep
    dsimp only at hstep
    split at hstep
    · cases hstep
      exact h.updateReadState h.file h.resolved_le _
    · cases hstep
  | lockOther =>
    unfold AuthReads.step at hstep
    dsimp only at hstep
    split at hstep
    · cases hstep
      exact h.setLock _
    · cases hstep
  | external data =>
    unfold AuthReads.step at hstep
    dsimp only at hstep
    split at hstep
    · cases hstep
      exact h.writeFile data
    · cases hstep
  | unlockOther =>
    unfold AuthReads.step at hstep
    dsimp only at hstep
    split at hstep
    · cases hstep
      exact h.setLock _
    · cases hstep

theorem inv_runSound [DecidableEq π] {actions : List (Action π γ)} {t : State π γ} (h : Inv s)
    (hrun : runSound s actions = some t) : Inv t :=
  @Runs.run_induction_if _ _ _ Inv (fun s action => sound s action = true) _
    (fun _ _ _ hs hsound hstep => hs.step hsound hstep) actions _ _ h hrun

end Steps

/-- **Reads are fresh.** In every run whose steps are sound, whatever a reader has been given was
the content of the file at a revision that is not older than the last write that had resolved
when the reader came. No reader is rejected because a reload was aborted, and none waits for one
that is. A `modify` or `delete` that has thrown has neither written the file nor changed
`readState`. -/
theorem reads_fresh [DecidableEq π] (first : π → Option γ) (actions : List (Action π γ))
    (t : State π γ) (hrun : runSound (initial first) actions = some t) :
    (∀ reader ∈ t.readers, ∀ data, reader.reading = .returned data →
      reader.after ≤ data.version ∧ t.written[data.version]? = some data.data) ∧
    (∀ reader ∈ t.readers, reader.reading ≠ .rejected true ∧
      ∀ i, reader.reading = .waiting i → ∃ call, t.calls[i]? = some call ∧ call.aborted = false) ∧
    ∀ i call aborted, t.calls[i]? = some call → call.kind ≠ .reload →
      call.phase = .settled (.failed aborted) → i ∉ t.touched := by
  have h := inv_runSound (inv_initial first) hrun
  refine ⟨fun reader hreader data hreading => ?_, fun reader hreader =>
    ⟨fun hreading => ?_, ?_⟩, ?_⟩
  · have hinv := h.readers reader hreader
    rw [ReaderInv, hreading] at hinv
    exact hinv
  · have hinv := h.readers reader hreader
    rw [ReaderInv, hreading] at hinv
    cases hinv
  · intro i hreading
    have hinv := h.readers reader hreader
    rw [ReaderInv, hreading] at hinv
    obtain ⟨call, hcall, -, hrunning, -⟩ := hinv.reload
    exact ⟨call, hcall, hrunning⟩
  · intro i call aborted hi hkind hphase htouched
    rcases (h.calls i call hi).touched htouched with hreload | ⟨outcome, houtcome, hupdate⟩
    · exact hkind hreload
    · rw [hphase] at houtcome
      cases houtcome
      cases hupdate

/-! ## A write between two reads -/

/-- A reload reads the file and releases the lock; a `modify` writes and resolves before the reload
goes on. -/
def staleRun : List (Action Unit Bool) :=
  [.read false, .acquire 0, .work 0 .keeps, .release 0, .call (.modify ()), .acquire 1,
    .work 1 (.writes true), .release 1, .finish 1, .read false, .finish 0, .resume 0, .resume 1]

/-- The same, when the reload goes on before the write resolves. -/
def freshRun : List (Action Unit Bool) :=
  [.read false, .acquire 0, .work 0 .keeps, .release 0, .call (.modify ()), .acquire 1, .finish 0,
    .resume 0, .work 1 (.writes true), .release 1, .finish 1, .read false, .acquire 2,
    .work 2 .keeps, .release 2, .finish 2, .resume 1]

/-- The second reader is given what was written. -/
theorem reads_fresh_sample : ∃ t, runSound (initial fun _ => none) freshRun = some t ∧
    ∀ reader ∈ t.readers, ∀ data, reader.reading = .returned data →
      reader.after ≤ data.version ∧ t.written[data.version]? = some data.data := by
  have hruns : (runSound (initial fun _ => none) freshRun).isSome = true := by decide
  obtain ⟨t, hrun⟩ := Option.isSome_iff_exists.mp hruns
  exact ⟨t, hrun, (reads_fresh (fun _ => none) freshRun t hrun).1⟩

/-- The second reader comes when the write has resolved, and is given the content before it. -/
theorem read_stale : (run (initial fun _ => none) staleRun).any (fun t =>
    t.readers.any fun reader =>
      match reader.reading with
      | .returned data => reader.after = 2 && data.version = 1 && (data.data ()).isNone
      | _ => false) = true := by
  decide

end PiMono.CodingAgent.AuthReads
