import Sniper.Levels.Cascades
set_option autoImplicit false

/-! What an event at one address does to the copies of another line. -/

namespace Sniper.Levels
open Sniper.Coherence (MsgType ShmemMsg)
open Sniper.Lib (except_bind_eq_ok)
open Levels.Core

variable {ι Addr D : Type} [DecidableEq ι] [DecidableEq Addr]

namespace Hierarchy

variable {H : Hierarchy ι Addr} {X a : Addr} {self : ι} {s s' s'' : Core ι Addr D}

/-- The copies of `X` stay as good as they were. -/
def Leaves (H : Hierarchy ι Addr) (X : Addr) (s s' : Core ι Addr D) : Prop :=
  ∀ e, (s.copies X fun _ => none).Good H e → (s'.copies X fun _ => none).Good H e ∧ Spares H X s s'

omit [DecidableEq ι] in
theorem Leaves.trans (h : H.Leaves X s s') (h' : H.Leaves X s' s'') : H.Leaves X s s'' := by
  intro e hg
  obtain ⟨hg₁, hs₁⟩ := h e hg
  obtain ⟨hg₂, hs₂⟩ := h' e hg₁
  exact ⟨hg₂, hs₁.trans hs₂⟩

omit [DecidableEq ι] in
theorem leaves_refl (H : Hierarchy ι Addr) (X : Addr) (s : Core ι Addr D) : H.Leaves X s s :=
  fun _ hg => ⟨hg, (Shrinks.refl H X s).toSpares⟩

theorem setLine_leaves (ha : a ≠ X) (i : ι) (l : Option (Line D)) :
    H.Leaves X s (s.setLine i a l) :=
  fun _ hg => ⟨by rwa [copies_setLine_ne ha], (shrinks_setLine_ne ha).toSpares⟩

omit [DecidableEq ι] in
theorem send_leaves (ha : a ≠ X) (t : MsgType) (buf : Option D) : H.Leaves X s (s.send a t buf) :=
  fun _ hg => ⟨by rwa [copies_send_ne ha], (shrinks_send a t buf).toSpares⟩

omit [DecidableEq ι] in
theorem accesses_leaves (acc : Accesses ι Addr D) : H.Leaves X s { s with accesses := acc } :=
  fun _ hg => ⟨hg, ⟨(Shrinks.refl H X s).lines, (Shrinks.refl H X s).evicting,
    (Shrinks.refl H X s).last⟩⟩

theorem call_leaves {n : ℕ} {c : Call ι Addr D} {out : Option D} (ha : c.addr ≠ X)
    (h : H.call n c s = .ok (out, s')) : H.Leaves X s s' := by
  intro e hg
  obtain ⟨hg', hs'⟩ := (call_keeps H X n).other ha h hg
  exact ⟨hg', hs'.toSpares⟩

theorem invalidateCacheBlock_leaves (ha : a ≠ X) (h : s.invalidateCacheBlock self a = .ok s') :
    H.Leaves X s s' := by
  rcases invalidateCacheBlock_ok h with ⟨-, rfl⟩ | ⟨l, -, -, rfl⟩
  · exact leaves_refl H X _
  · exact setLine_leaves ha self none

theorem updateSiblings_leaves {requester : ι} {newCState : CacheState} (ha : a ≠ X)
    (h : H.updateSiblings requester self a newCState s = .ok s') : H.Leaves X s s' := by
  intro e hg
  obtain ⟨hg', hs'⟩ := updatePrevs_other (call_keeps H X H.depth) ha h hg
  exact ⟨hg', hs'.toSpares⟩

theorem insertCacheBlock_leaves {cstate : CacheState} {data : D} (ha : a ≠ X)
    (h : H.insertCacheBlock self a cstate data s = .ok s') : H.Leaves X s s' := by
  unfold insertCacheBlock at h
  split at h
  · cases h
  rename_i hnone
  cases hins : insertLine H.place self a ⟨cstate, data⟩ s with
  | mk writebacks u =>
    rw [hins] at h
    dsimp only at h
    split at h
    · cases h
    · intro e hg
      obtain ⟨out, hd⟩ := insertLine_displaces (by simpa using hnone) hins X
      obtain ⟨hg₁, hs₁⟩ := handleWritebacks_displaced (call_keeps H X H.depth) hd h
        (by rwa [copies_setLine_ne ha])
      exact ⟨hg₁, ((shrinks_setLine_ne ha).trans hs₁).toSpares⟩

theorem accessCache_leaves {op : MemOp D} {out : Option D} (ha : a ≠ X)
    (h : H.accessCache self a op s = .ok (out, s')) : H.Leaves X s s' := by
  unfold accessCache at h
  split at h
  · cases h
    exact leaves_refl H X _
  · cases h
    exact leaves_refl H X _
  · cases h
    exact leaves_refl H X _
  · rename_i l store _
    cases hwrite : s.writeLine H.place self a { l with data := store l.data } with
    | mk writebacks u =>
      rw [hwrite] at h
      dsimp only at h
      split at h
      · cases h
      simp only [except_bind_eq_ok] at h
      obtain ⟨v, hwbs, h⟩ := h
      cases h
      intro e hg
      obtain ⟨out, hd⟩ := writeLine_displaces hwrite X
      have hd' : ∀ acc, Displaces X self out writebacks
          { s.setLine self a (some { l with data := store l.data }) with accesses := acc }
          { u with accesses := acc } := fun _ =>
        ⟨hd.writebacks, hd.line, hd.was, hd.off, hd.evicting, hd.sent, rfl⟩
      obtain ⟨hg₁, hs₁⟩ := (setLine_leaves ha self _).trans (accesses_leaves _) e hg
      obtain ⟨hg₂, hs₂⟩ := handleWritebacks_displaced (call_keeps H X H.depth) (hd' _) hwbs hg₁
      exact ⟨hg₂, hs₁.trans hs₂.toSpares⟩

theorem copyDataFromNextLevel_leaves {up : ι} {op : MemOp D} (ha : a ≠ X)
    (h : H.copyDataFromNextLevel self up op a s = .ok s') : H.Leaves X s s' := by
  unfold copyDataFromNextLevel at h
  split at h
  · cases h
  split at h
  · cases h
  rename_i l _ _
  split at h
  · cases hcall : H.call H.depth (.update self a l.cstate false) s with
    | error f =>
      rw [hcall] at h
      cases h
    | ok r =>
      rw [hcall] at h
      cases h
      exact call_leaves (show (Call.update self a l.cstate false).addr ≠ X from ha) hcall
  · exact insertCacheBlock_leaves ha h

theorem initiateDirectoryAccess_leaves {waiter : Waiter ι D} (ha : a ≠ X)
    (h : H.initiateDirectoryAccess waiter a s = .ok s') : H.Leaves X s s' := by
  unfold initiateDirectoryAccess at h
  dsimp only at h
  split at h
  · cases h
    exact accesses_leaves _
  split at h
  · split at h
    · cases h
      exact (accesses_leaves _).trans (send_leaves ha _ _)
    · split at h
      · cases h
        exact (accesses_leaves _).trans ((setLine_leaves ha _ _).trans (send_leaves ha _ _))
      · cases h
  · cases h
    exact (accesses_leaves _).trans (send_leaves ha _ _)

theorem snoop_leaves {requester : ι} {op : MemOp D} {cstate : CacheState} (ha : a ≠ X)
    (h : H.snoop requester self op a cstate s = .ok s') : H.Leaves X s s' := by
  unfold snoop at h
  split at h
  · exact updateSiblings_leaves ha h
  · cases h
    exact leaves_refl H X _

variable {hit : Bool} {waiter : Waiter ι D}

section Requests

variable {requester : ι}

theorem missAtLast_cases (h : H.missAtLast requester self waiter a s = .ok (hit, s')) :
    ((s.lines self a).map Line.cstate = some .exclusive ∧ hit = true ∧
      ∃ u l, H.updateSiblings requester self a .invalid s = .ok u ∧ u.lines self a = some l ∧
        s' = u.setCState self a .modified) ∨
    ((s.lines self a).map Line.cstate ≠ some .exclusive ∧ hit = false ∧
      H.initiateDirectoryAccess waiter a s = .ok s') := by
  unfold missAtLast at h
  split at h
  · rename_i hst
    simp only [except_bind_eq_ok] at h
    obtain ⟨u, hsib, d, hget, h⟩ := h
    cases h
    obtain ⟨l, hl, -⟩ := retrieveCacheBlock_ok hget
    rw [setCState, setLine_lines_self, Option.map_eq_some_iff] at hl
    obtain ⟨l', hl', -⟩ := hl
    exact .inl ⟨hst, rfl, u, l', hsib, hl', rfl⟩
  · rename_i hst
    simp only [except_bind_eq_ok] at h
    obtain ⟨u, hacc, h⟩ := h
    cases h
    exact .inr ⟨hst, rfl, hacc⟩

variable {n : ℕ} {up : ι}

theorem fetch_cases {request : Core ι Addr D → Outcome (Bool × Core ι Addr D)} {op : MemOp D}
    (h : H.fetch request self up op a s = .ok (hit, s')) :
    ∃ u, request s = .ok (hit, u) ∧
      ((hit = true ∧ H.copyDataFromNextLevel self up op a u = .ok s') ∨
        (hit = false ∧ s' = u)) := by
  simp only [fetch, except_bind_eq_ok] at h
  obtain ⟨⟨found, u⟩, hreq, h⟩ := h
  dsimp only at h
  split at h
  · rename_i hfound
    simp only [except_bind_eq_ok] at h
    obtain ⟨v, hcopy, -, -, h⟩ := h
    cases h
    exact ⟨u, hfound ▸ hreq, .inl ⟨rfl, hcopy⟩⟩
  · rename_i hfound
    cases h
    have hf : found = false := by simpa using hfound
    exact ⟨s', hf ▸ hreq, .inr ⟨rfl, rfl⟩⟩

/-- A SHARED line is upgraded before the rest of the request, any other line is left alone. -/
theorem upgraded_cases {l : Line D} {rest : Core ι Addr D → Outcome (Bool × Core ι Addr D)}
    (h : (if l.cstate = .shared then do
        let s ← H.updateSiblings requester self a .invalid s
        rest s
      else do
        let s ← .ok s
        rest s) = .ok (hit, s')) :
    ∃ u, ((l.cstate = .shared ∧ H.updateSiblings requester self a .invalid s = .ok u) ∨
      (l.cstate ≠ .shared ∧ u = s)) ∧ rest u = .ok (hit, s') := by
  split at h
  · rename_i hst
    rw [except_bind_eq_ok] at h
    obtain ⟨u, hsib, h⟩ := h
    exact ⟨u, .inl ⟨hst, hsib⟩, h⟩
  · rename_i hst
    exact ⟨s, .inr ⟨hst, rfl⟩, h⟩

/-- A request is answered by the controller itself, or goes on to the next level or to the
directory. -/
theorem processShmemReqFromPrevCache_cases
    (h : H.processShmemReqFromPrevCache (n + 1) requester self waiter a s = .ok (hit, s')) :
    (∃ l, s.lines self a = some l ∧ permissible waiter.op (some l) = true ∧ hit = true ∧
      H.snoop requester self waiter.op a l.cstate s = .ok s') ∨
    (permissible waiter.op (s.lines self a) = false ∧ ∃ u,
      (((s.lines self a).map Line.cstate = some .shared ∧
          H.updateSiblings requester self a .invalid s = .ok u) ∨
        ((s.lines self a).map Line.cstate ≠ some .shared ∧ u = s)) ∧
      ((∃ up v, H.next self = some up ∧ u.invalidateCacheBlock self a = .ok v ∧
          H.fetch (H.processShmemReqFromPrevCache n self up waiter a) self up waiter.op a v =
            .ok (hit, s')) ∨
        (H.next self = none ∧ H.missAtLast requester self waiter a u = .ok (hit, s')))) := by
  simp only [processShmemReqFromPrevCache] at h
  split at h
  · rename_i l hl
    split at h
    · rename_i hp
      simp only [except_bind_eq_ok] at h
      obtain ⟨u, hsnoop, -, -, h⟩ := h
      cases h
      exact .inl ⟨l, hl, hp, rfl, hsnoop⟩
    · rename_i hp
      refine .inr ⟨by simpa [hl] using hp, ?_⟩
      obtain ⟨u, hu, h⟩ := upgraded_cases h
      refine ⟨u, by simpa [hl] using hu, ?_⟩
      split at h
      · rename_i up hup
        simp only [except_bind_eq_ok] at h
        obtain ⟨v, hinv, h⟩ := h
        exact .inl ⟨up, v, hup, hinv, h⟩
      · rename_i hnone
        exact .inr ⟨hnone, h⟩
  · rename_i hnone
    refine .inr ⟨by simp [hnone, permissible], s, .inr ⟨by simp [hnone], rfl⟩, ?_⟩
    split at h
    · rename_i up hup
      exact .inl ⟨up, s, hup, by simp [invalidateCacheBlock, hnone], h⟩
    · rename_i hup
      exact .inr ⟨hup, h⟩

theorem missAtLast_leaves (ha : a ≠ X)
    (h : H.missAtLast requester self waiter a s = .ok (hit, s')) : H.Leaves X s s' := by
  rcases missAtLast_cases h with ⟨-, -, u, l, hsib, -, rfl⟩ | ⟨-, -, hacc⟩
  · exact (updateSiblings_leaves ha hsib).trans (setLine_leaves ha _ _)
  · exact initiateDirectoryAccess_leaves ha hacc

theorem processShmemReqFromPrevCache_leaves (ha : a ≠ X)
    (h : H.processShmemReqFromPrevCache n requester self waiter a s = .ok (hit, s')) :
    H.Leaves X s s' := by
  induction n generalizing requester self s hit s' with
  | zero =>
    simp only [processShmemReqFromPrevCache] at h
    cases h
  | succ n ih =>
    rcases processShmemReqFromPrevCache_cases h with ⟨l, -, -, -, hsnoop⟩ | ⟨-, u, hu, hgo⟩
    · exact snoop_leaves ha hsnoop
    have hsib : H.Leaves X s u := by
      rcases hu with ⟨-, hsib⟩ | ⟨-, rfl⟩
      · exact updateSiblings_leaves ha hsib
      · exact leaves_refl H X _
    refine hsib.trans ?_
    rcases hgo with ⟨up, v, -, hinv, hfetch⟩ | ⟨-, hmiss⟩
    · refine (invalidateCacheBlock_leaves ha hinv).trans ?_
      obtain ⟨w, hreq, ⟨-, hcopy⟩ | ⟨-, rfl⟩⟩ := fetch_cases hfetch
      · exact (ih hreq).trans (copyDataFromNextLevel_leaves ha hcopy)
      · exact ih hreq
    · exact missAtLast_leaves ha hmiss

end Requests

section Events

variable {out : Option D} {op : MemOp D}

theorem fillAndAccess_leaves {up : ι} (ha : a ≠ X)
    (h : H.fillAndAccess self up op a s = .ok (out, s')) : H.Leaves X s s' := by
  simp only [fillAndAccess, except_bind_eq_ok] at h
  obtain ⟨u, hcopy, h⟩ := h
  split at h
  · exact (copyDataFromNextLevel_leaves ha hcopy).trans (accessCache_leaves ha h)
  · cases h

theorem processMemOpFromCore_leaves (ha : a ≠ X)
    (h : H.processMemOpFromCore self op a s = .ok (out, s')) : H.Leaves X s s' := by
  unfold processMemOpFromCore at h
  split at h
  · cases h
  split at h
  · exact accessCache_leaves ha h
  split at h
  · cases h
  simp only [except_bind_eq_ok] at h
  obtain ⟨u, hinv, ⟨hit, v⟩, hreq, h⟩ := h
  have hv := (invalidateCacheBlock_leaves (H := H) ha hinv).trans
    (processShmemReqFromPrevCache_leaves ha hreq)
  dsimp only at h
  split at h
  · exact hv.trans (fillAndAccess_leaves ha h)
  · cases h
    exact hv.trans (accesses_leaves _)

theorem resume_leaves (ha : a ≠ X) (h : H.resume waiter a s = .ok (out, s')) :
    H.Leaves X s s' := by
  unfold resume at h
  split at h
  · cases h
  simp only [except_bind_eq_ok] at h
  obtain ⟨⟨hit, u⟩, hreq, h⟩ := h
  dsimp only at h
  split at h
  · exact (processShmemReqFromPrevCache_leaves ha hreq).trans (fillAndAccess_leaves ha h)
  · cases h

theorem serveWaiters_leaves (ha : a ≠ X) (h : H.serveWaiters a s = .ok (out, s')) :
    H.Leaves X s s' := by
  unfold serveWaiters at h
  split at h
  · cases h
    exact accesses_leaves _
  split at h
  · cases h
    exact (accesses_leaves _).trans ((setLine_leaves ha _ _).trans (send_leaves ha _ _))
  · exact (accesses_leaves _).trans (resume_leaves ha h)

theorem processReply_leaves {reply : Core ι Addr D → Outcome (Core ι Addr D)} (ha : a ≠ X)
    (hreply : ∀ {s u}, reply s = .ok u → H.Leaves X s u)
    (h : H.processReply a reply s = .ok (out, s')) : H.Leaves X s s' := by
  unfold processReply at h
  split at h
  · cases h
  simp only [except_bind_eq_ok] at h
  obtain ⟨u, hu, h⟩ := h
  exact (hreply hu).trans (serveWaiters_leaves ha h)

theorem snd_call_leaves {n : ℕ} {c : Call ι Addr D} (ha : c.addr ≠ X)
    (h : Prod.snd <$> H.call n c s = .ok s') : H.Leaves X s s' := by
  cases hcall : H.call n c s with
  | error f =>
    rw [hcall] at h
    cases h
  | ok r =>
    rw [hcall] at h
    cases h
    exact call_leaves ha hcall

theorem handleMsgFromDramDirectory_leaves {msg : ShmemMsg D} {memory unwritten : D} (ha : a ≠ X)
    (h : H.handleMsgFromDramDirectory a msg memory unwritten s = .ok (out, s')) :
    H.Leaves X s s' := by
  have hrep : ∀ {cstate : CacheState} {s u : Core ι Addr D},
      H.processRepFromDramDirectory a cstate memory s = .ok u → H.Leaves X s u :=
    fun hu => (accesses_leaves _).trans (insertCacheBlock_leaves ha hu)
  unfold handleMsgFromDramDirectory at h
  split at h
  · cases h
  split at h
  · exact processReply_leaves ha hrep h
  · exact processReply_leaves ha hrep h
  · refine processReply_leaves ha (fun {s u} hu => ?_) h
    unfold processUpgradeRepFromDramDirectory at hu
    split at hu
    · split at hu
      · cases hu
      · exact snd_call_leaves (c := .update H.last a .modified true) ha hu
    · split at hu
      · exact snd_call_leaves (c := .update H.last a .modified false) ha hu
      · cases hu
  · simp only [except_bind_eq_ok] at h
    obtain ⟨u, hinv, h⟩ := h
    cases h
    unfold processInvReqFromDramDirectory at hinv
    split at hinv
    · cases hinv
      exact leaves_refl H X _
    · simp only [except_bind_eq_ok] at hinv
      obtain ⟨⟨o, v⟩, hcall, hinv⟩ := hinv
      cases hinv
      exact (call_leaves (c := .update H.last a .invalid false) ha hcall).trans
        (send_leaves ha _ _)
  · simp only [except_bind_eq_ok] at h
    obtain ⟨u, hflush, h⟩ := h
    cases h
    unfold processFlushReqFromDramDirectory at hflush
    split at hflush
    · cases hflush
      exact leaves_refl H X _
    · simp only [except_bind_eq_ok] at hflush
      obtain ⟨⟨o, v⟩, hcall, hflush⟩ := hflush
      cases hflush
      exact (call_leaves (c := .update H.last a .invalid true) ha hcall).trans
        (send_leaves ha _ _)
  · simp only [except_bind_eq_ok] at h
    obtain ⟨u, hwb, h⟩ := h
    cases h
    unfold processWbReqFromDramDirectory at hwb
    split at hwb
    · cases hwb
      exact leaves_refl H X _
    split at hwb
    · cases hwb
      exact send_leaves ha _ _
    · simp only [except_bind_eq_ok] at hwb
      obtain ⟨⟨o, v⟩, hcall, hwb⟩ := hwb
      cases hwb
      exact (call_leaves (c := .update H.last a .shared true) ha hcall).trans
        (send_leaves ha _ _)
  · cases h

end Events

end Hierarchy

/-- The address an event is about. -/
def Event.addr (s : Core ι Addr D) : Event ι Addr D → Option Addr
  | .memOp _ _ a | .message a _ _ _ => some a
  | .finishWaiter => s.accesses.serving

namespace Hierarchy

variable {H : Hierarchy ι Addr} {X : Addr} {s s' : Core ι Addr D} {out : Option D}

/-- An event leaves the copies of every other line as good as they were. -/
theorem step_leaves {ev : Event ι Addr D} (ha : ev.addr s ≠ some X)
    (h : H.step s ev = .ok (out, s')) : H.Leaves X s s' := by
  cases ev with
  | memOp cache op a => exact processMemOpFromCore_leaves (by simpa [Event.addr] using ha) h
  | message a msg memory unwritten =>
    exact handleMsgFromDramDirectory_leaves (by simpa [Event.addr] using ha) h
  | finishWaiter =>
    simp only [step, finishWaiter] at h
    split at h
    · cases h
    · rename_i a hserving
      exact (accesses_leaves _).trans
        (serveWaiters_leaves (by simpa [Event.addr, hserving] using ha) h)

end Hierarchy

end Sniper.Levels
