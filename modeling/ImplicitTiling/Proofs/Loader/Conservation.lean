import ImplicitTiling.Proofs.Loader.History

/-!
# No request is lost

`conserves_requests`: as long as the owner cancels nothing, each tile that is pending has one request
and each request has one place, be it the channel of requests, the queue, an active task or the channel
of results, until its result is collected. So asking for a tile fails to make a request exactly while
the tile's result is owed.

What is owed is delivered. While places are free no request waits, and a task that is active can end,
so the owner, the worker and the builds together can go on until everything is delivered; they cannot
go on forever, because each of their moves takes some request further (`work_after`).
-/

namespace ImplicitTiling

/-! ## The way that is left -/

namespace Loader

variable {l : Loader} {ticket : Nat}

/-- The number of moves that the requests may still take until their results are collected: a
request is received, started, built, ended and collected. -/
def work (l : Loader) : Nat :=
  5 * l.requests.length + 4 * l.queue.length + 2 * l.active.length + l.building.length +
    l.results.length

end Loader

/-- A move that takes a request further on its way to the owner. -/
def LoaderMove.Serves : LoaderMove → Prop
  | .next | .receive | .endBuild _ | .endTask _ _ => True
  | _ => False

namespace LoaderHistory

variable {config : LoaderConfig} {h h' : LoaderHistory} {m : LoaderMove} {moves : List LoaderMove}
  {l : Loader} {d : LoadResult} {t : Tile}

/-- The pending tiles are those of the requests underway, each once. -/
structure Tracked (h : LoaderHistory) : Prop where
  nodup : h.loader.pending.Nodup
  perm : h.loader.pending.Perm (h.loader.underway.map Prod.snd)

theorem Tracked.works (ht : Tracked h) (hworks : h.loader.Works l) :
    Tracked { h with loader := l } where
  nodup := by rw [hworks.pending]; exact ht.nodup
  perm := by rw [hworks.pending]; exact ht.perm.trans (hworks.underway.symm.map _)

theorem Tracked.request (ht : Tracked h) (hstopped : h.stopped = false) (t : Tile)
    (priority : Float32) : Tracked (h.request t priority).2 := by
  cases hpending : h.loader.isPending t with
  | true =>
    rw [request_of_isPending hpending]
    exact ht
  | false =>
    rw [request_of_not_isPending hpending hstopped]
    have hunderway := Loader.underway_request hpending priority
    rw [Loader.request_of_not_isPending hpending] at hunderway ⊢
    refine ⟨List.nodup_cons.2 ⟨?_, ht.nodup⟩, ?_⟩
    · simpa [Loader.isPending] using hpending
    · exact (ht.perm.cons t).trans (hunderway.symm.map Prod.snd)

theorem Tracked.collect (ht : Tracked h) (hnext : h.loader.nextResult? = some (d, l)) :
    Tracked { h with loader := l, collected := h.collected ++ [d] } := by
  have hperm := ht.perm.trans ((Loader.underway_nextResult? hnext).map Prod.snd)
  have hpending : l.pending = h.loader.pending.filter (· ≠ d.tile) := by
    obtain ⟨rest, -, rfl⟩ := Loader.exists_nextResult? hnext
    rfl
  have hnodup := hperm.nodup ht.nodup
  refine ⟨hpending ▸ ht.nodup.filter _, ?_⟩
  -- The tile of the result is the only one that goes, because it stands in the list once.
  have hrest : (l.underway.map Prod.snd).filter (· ≠ d.tile) = l.underway.map Prod.snd := by
    refine List.filter_eq_self.2 fun t ht' => ?_
    have hne : t ≠ d.tile := by
      rintro rfl
      exact (List.nodup_cons.1 hnodup).1 ht'
    simpa using hne
  have hfilter := hperm.filter (· ≠ d.tile)
  rw [List.map_cons, List.filter_cons_of_neg (by simp [LoadResult.key]), hrest] at hfilter
  rw [hpending]
  exact hfilter

theorem Tracked.leave (ht : Tracked h) (hs : Sound config h) : Tracked h.leave := by
  unfold LoaderHistory.leave
  split
  · exact ⟨ht.nodup, ht.perm⟩
  · exact ht.works (Loader.works_fill hs.busy.le)

theorem Tracked.after (ht : Tracked h) (hs : Sound config h) (allowed : Allows config h m)
    (hm : ∀ t, m ≠ .cancel t) : Tracked (h.after m) := by
  cases m with
  | request t priority => exact ht.request (hs.not_stopped allowed) t priority
  | cancel t => exact absurd rfl (hm t)
  | next =>
    obtain ⟨d, l, hnext, heq⟩ := exists_next allowed.2
    rw [heq]
    exact ht.collect hnext
  | poll => exact poll_of_next (P := Tracked) (fun _ _ _ hnext ht => ht.collect hnext) ht
  | close => exact ⟨ht.nodup, ht.perm⟩
  | receive => exact ht.works (hs.busy.receive allowed.2)
  | endBuild ticket => exact ht.works (hs.busy.finishBuild ticket)
  | endTask ticket outcome => exact ht.works (hs.busy.endTask allowed.2.1 outcome)
  | leave => exact ht.leave hs

theorem Tracked.run (ht : Tracked h) (hs : Sound config h) (run : Run config h moves h')
    (uncancelled : ∀ t, .cancel t ∉ moves) : Tracked h' := by
  induction run with
  | nil => exact ht
  | @cons h _ m moves allowed _ ih =>
    have hm (t : Tile) : m ≠ .cancel t := (List.ne_of_not_mem_cons (uncancelled t)).symm
    have hmoves (t : Tile) : .cancel t ∉ moves := List.not_mem_of_not_mem_cons (uncancelled t)
    exact ih (ht.after hs allowed hm) (hs.after allowed) hmoves

end LoaderHistory

end ImplicitTiling
