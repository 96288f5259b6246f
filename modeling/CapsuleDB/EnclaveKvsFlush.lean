import CapsuleDB.EnclaveKvsReads

/-!
# The order of the flushed dumps

A completed flush is the dump of its target together with the moments at
which the dumped pairs were accepted. A pair keeps the moment of the write
that put it into its memtable, since a memtable that is being flushed takes
no writes. The moments of one key grow from flush to flush as long as no
flush empties the current memtable over a key the other one also holds.
-/

namespace CapsuleDB.EnclaveKvsFlush

open LabelledRun LayeredMap EnclaveMemTable EnclaveKvs EnclaveKvsRun EnclaveKvsReads

/-- The last accepted write of a key into one memtable, with the number of
events that preceded it. -/
def lastPut (slot : ℕ) (key : Bytes) : List Event → Option (ℕ × Bytes)
  | [] => none
  | .put k v .writePass j :: older =>
    if k = key ∧ j = slot then some (older.length, v) else lastPut slot key older
  | _ :: older => lastPut slot key older

/-- A completed flush. -/
structure Flush where
  /-- The pairs dumped by the `InitFlush` whose target was then emptied. -/
  dump : List (Bytes × Bytes)
  /-- The moment of the accepted write that put the pair of a key there. -/
  writtenAt : Bytes → Option ℕ

/-- The completed flushes, newest first. -/
def flushes : List Event → List Flush
  | [] => []
  | .endFlush target :: older =>
    ⟨(lastDump older).getD [], fun key => (lastPut target key older).map Prod.fst⟩ ::
      flushes older
  | _ :: older => flushes older

/-- Of two completed flushes that dumped the same key, the later one dumped
the value accepted later. -/
def DumpsInWriteOrder (history : List Event) : Prop :=
  (flushes history).Pairwise fun later earlier =>
    ∀ key v w, (key, v) ∈ earlier.dump → (key, w) ∈ later.dump →
      ∃ a b, earlier.writtenAt key = some a ∧ later.writtenAt key = some b ∧ a < b

/-- The step does not empty the current memtable while the other one holds
some key of it. -/
def KeepsDumpOrder (s : KVStore 2) : Event → Prop
  | .endFlush target => s.curMt = target → ∀ c o : Fin 2, c.val = target → o ≠ c →
      ∀ key, s.layer c key = none ∨ s.layer o key = none
  | _ => True

/-- A memtable holds the pair, written at the given moment. -/
def Copy (history : List Event) (s : KVStore 2) (i : Fin 2) (key value : Bytes) (a : ℕ) : Prop :=
  s.layer i key = some value ∧ lastPut i key history = some (a, value)

/-- Moments lie in the past. -/
theorem lastPut_lt {slot : ℕ} {key value : Bytes} {a : ℕ} {history : List Event}
    (h : lastPut slot key history = some (a, value)) : a < history.length := by
  induction history with
  | nil => cases h
  | cons e older ih =>
    rw [List.length_cons]
    unfold lastPut at h
    split at h
    · next heq => cases heq
    · next heq =>
      cases heq
      split at h
      · cases h
        omega
      · have := ih h
        omega
    · next heq =>
      cases heq
      have := ih h
      omega

/-- The moment of a write is that of an accepted write of the same pair. -/
theorem lastPut_event {slot : ℕ} {key value : Bytes} {a : ℕ} {history : List Event}
    (h : lastPut slot key history = some (a, value)) :
    history.reverse[a]? = some (.put key value .writePass slot) := by
  induction history with
  | nil => cases h
  | cons e older ih =>
    rw [List.reverse_cons]
    have hold : lastPut slot key older = some (a, value) →
        (older.reverse ++ [e])[a]? = some (.put key value .writePass slot) := by
      intro h
      rw [List.getElem?_append_left (by rw [List.length_reverse]; exact lastPut_lt h)]
      exact ih h
    unfold lastPut at h
    split at h
    · next heq => cases heq
    · next heq =>
      cases heq
      split at h
      · next hsame =>
        cases h
        obtain ⟨rfl, rfl⟩ := hsame
        rw [List.getElem?_append_right (by rw [List.length_reverse]), List.length_reverse,
          Nat.sub_self]
        rfl
      · exact hold h
    · next heq =>
      cases heq
      exact hold h

/-- An event keeps its place when the history grows. -/
theorem event_cons {history : List Event} {a : ℕ} {x : Event} (e : Event)
    (h : history.reverse[a]? = some x) : (e :: history).reverse[a]? = some x := by
  obtain ⟨hlt, _⟩ := List.getElem?_eq_some_iff.mp h
  rw [List.reverse_cons, List.getElem?_append_left hlt, h]

/-- The moments of a flush are those of accepted writes of the pairs it dumped. -/
def DatedBy (history : List Event) (F : Flush) : Prop :=
  ∀ key value, (key, value) ∈ F.dump →
    ∃ a slot, F.writtenAt key = some a ∧
      history.reverse[a]? = some (.put key value .writePass slot)

/-- Every pair held and every pair flushed is dated. -/
structure Dated (history : List Event) (s : KVStore 2) : Prop where
  /-- The moment of every pair held is known. -/
  copies : ∀ i key value, s.layer i key = some value → ∃ a, Copy history s i key value a
  /-- The moments of every completed flush are known. -/
  flushed : ∀ F ∈ flushes history, DatedBy history F

/-- The fresh store. -/
theorem dated_new (mtMaxSz : UInt64) (sema : Option Bool) :
    Dated [] (KVStore.new 2 mtMaxSz sema) := by
  refine ⟨fun i key value h => ?_, fun F hF => ?_⟩
  · rw [layer_of_empty rfl] at h
    cases h
  · cases hF

/-- An event that is neither an accepted write nor the end of a flush. -/
def Quiet : Event → Prop
  | .put _ _ st _ => st ≠ .writePass
  | .endFlush _ => False
  | _ => True

/-- Quiet events add no moment. -/
theorem lastPut_quiet {e : Event} (he : Quiet e) (slot : ℕ) (key : Bytes) (older : List Event) :
    lastPut slot key (e :: older) = lastPut slot key older := by
  cases e with
  | put k v st j => cases st <;> first | rfl | exact absurd rfl he
  | _ => rfl

/-- Quiet events complete no flush. -/
theorem flushes_quiet {e : Event} (he : Quiet e) (older : List Event) :
    flushes (e :: older) = flushes older := by
  cases e with
  | endFlush _ => cases he
  | _ => rfl

/-- A quiet step that changes no layer changes no copy. -/
theorem copy_quiet {history : List Event} {s s' : KVStore 2} {e : Event} (he : Quiet e)
    (hlayer : ∀ i, s'.layer i = s.layer i) (i : Fin 2) (key v : Bytes) (a : ℕ) :
    Copy (e :: history) s' i key v a ↔ Copy history s i key v a := by
  rw [Copy, Copy, hlayer, lastPut_quiet he]

/-- The end of a flush drops the copies of its target. -/
theorem copy_cleared {history : List Event} {s : KVStore 2} (t i : Fin 2) (key v : Bytes)
    (a : ℕ) : Copy (.endFlush t :: history) (s.cleared t) i key v a ↔
      i ≠ t ∧ Copy history s i key v a := by
  rw [Copy, Copy, layer_cleared]
  by_cases hit : i = t <;> simp [hit, lastPut]

/-- The moments after an accepted write: its own key in its own memtable is
stamped now, everything else as before. -/
theorem lastPut_put (slot : ℕ) (k key value : Bytes) (d : ℕ) (older : List Event) :
    lastPut slot k (.put key value .writePass d :: older) =
      if key = k ∧ d = slot then some (older.length, value) else lastPut slot k older := rfl

/-- Copies after an accepted write are the new pair or earlier copies. -/
theorem copy_accepted {history : List Event} {s s' : KVStore 2} {d i : Fin 2}
    {key value k v : Bytes} {m : MemTable} {a : ℕ} (ha : s.Accepted key value d m s')
    (h : Copy (.put key value .writePass d :: history) s' i k v a) :
    (i = d ∧ k = key ∧ v = value ∧ a = history.length) ∨
      (¬ (i = d ∧ k = key) ∧ Copy history s i k v a) := by
  obtain ⟨hlayer, hstamp⟩ := h
  rw [lastPut_put] at hstamp
  by_cases hsame : i = d ∧ k = key
  · obtain ⟨rfl, rfl⟩ := hsame
    rw [if_pos ⟨rfl, rfl⟩] at hstamp
    cases hstamp
    exact .inl ⟨rfl, rfl, rfl, rfl⟩
  · refine .inr ⟨hsame, ?_, ?_⟩
    · by_cases hid : i = d
      · subst hid
        rwa [layer_accepted ha, Function.update_of_ne (fun hk => hsame ⟨rfl, hk⟩)] at hlayer
      · rwa [layer_accepted_of_ne ha hid] at hlayer
    · rwa [if_neg (fun hk => hsame ⟨Fin.val_inj.mp hk.2.symm, hk.1.symm⟩)] at hstamp

/-- Every pair held after an accepted write is a copy. -/
theorem Dated.copies_accepted {history : List Event} {s s' : KVStore 2} {d : Fin 2}
    {key value : Bytes} {m : MemTable} (hi : Dated history s)
    (ha : s.Accepted key value d m s') {i : Fin 2} {k v : Bytes} (h : s'.layer i k = some v) :
    ∃ a, Copy (.put key value .writePass d :: history) s' i k v a := by
  by_cases hsame : i = d ∧ k = key
  · obtain ⟨rfl, rfl⟩ := hsame
    refine ⟨history.length, h, ?_⟩
    rw [layer_accepted ha, Function.update_self] at h
    cases h
    rw [lastPut_put, if_pos ⟨rfl, rfl⟩]
  · have hold : s.layer i k = some v := by
      by_cases hid : i = d
      · subst hid
        rwa [layer_accepted ha, Function.update_of_ne (fun hk => hsame ⟨rfl, hk⟩)] at h
      · rwa [layer_accepted_of_ne ha hid] at h
    obtain ⟨a, _, hstamp⟩ := hi.copies i k v hold
    refine ⟨a, h, ?_⟩
    rw [lastPut_put, if_neg (fun hk => hsame ⟨Fin.val_inj.mp hk.2.symm, hk.1.symm⟩), hstamp]

/-- The flush about to complete is dated by the copies its target holds. -/
theorem Dated.copy_of_dump {history : List Event} {s : KVStore 2} {c t : Fin 2}
    {key v : Bytes} (hi : Dated history s) (hd : Traced history s c)
    (ht : s.flushTarget = t.val) (hv : (key, v) ∈ (lastDump history).getD []) :
    ∃ a, Copy history s t key v a := by
  rw [hd.dumped t ht] at hv
  exact hi.copies t key v (MemTable.mem_dump.mp hv)

/-- Dates survive a quiet step that changes no layer. -/
theorem Dated.quiet {history : List Event} {s s' : KVStore 2} {e : Event}
    (hi : Dated history s) (he : Quiet e) (hlayer : ∀ i, s'.layer i = s.layer i) :
    Dated (e :: history) s' := by
  refine ⟨fun i key v h => ?_, fun F hF key v hv => ?_⟩
  · obtain ⟨a, ha⟩ := hi.copies i key v (by rwa [hlayer] at h)
    exact ⟨a, (copy_quiet he hlayer i key v a).mpr ha⟩
  · rw [flushes_quiet he] at hF
    obtain ⟨a, slot, hstamp, hevent⟩ := hi.flushed F hF key v hv
    exact ⟨a, slot, hstamp, event_cons e hevent⟩

/-- Dates survive every effect. -/
theorem Dated.next {history : List Event} {s s' : KVStore 2} {c c' : Fin 2} {e : Event}
    (hd : Traced history s c) (hi : Dated history s) (he : Effect s c e s' c') :
    Dated (e :: history) s' := by
  cases he with
  | refused _ => exact hi.quiet (by simp [Quiet]) fun _ => rfl
  | accepted ha =>
    refine ⟨fun i k v h => hi.copies_accepted ha h, fun F hF k v hv => ?_⟩
    obtain ⟨a, slot, hstamp, hevent⟩ := hi.flushed F hF k v hv
    exact ⟨a, slot, hstamp, event_cons _ hevent⟩
  | read _ => exact hi.quiet trivial fun _ => rfl
  | noTarget _ _ => exact hi.quiet trivial fun _ => rfl
  | marked _ _ _ => exact hi.quiet trivial (layer_marked s _)
  | again _ => exact hi.quiet trivial fun _ => rfl
  | @cleared t ht _ =>
    refine ⟨fun i k v h => ?_, fun F hF k v hv => ?_⟩
    · rw [layer_cleared] at h
      split at h
      · cases h
      · next hit =>
        obtain ⟨a, ha⟩ := hi.copies i k v h
        exact ⟨a, (copy_cleared t i k v a).mpr ⟨hit, ha⟩⟩
    · rcases List.mem_cons.mp hF with rfl | hF
      · obtain ⟨a, ha⟩ := hi.copy_of_dump hd ht hv
        exact ⟨a, t, by simp only [ha.2, Option.map_some], event_cons _ (lastPut_event ha.2)⟩
      · obtain ⟨a, slot, hstamp, hevent⟩ := hi.flushed F hF k v hv
        exact ⟨a, slot, hstamp, event_cons _ hevent⟩
  | forced => exact hi.quiet trivial fun _ => rfl

/-- Copies in the current memtable are newer than copies in the other one, and
all copies are newer than what was flushed. -/
structure Stamped (history : List Event) (s : KVStore 2) (c : Fin 2) : Prop where
  /-- The current memtable is the newer one. -/
  newer : ∀ o, o ≠ c → ∀ key v w a b, Copy history s o key v a → Copy history s c key w b → a < b
  /-- Flushed values are older than the values held. -/
  after : ∀ F ∈ flushes history, ∀ key v, (key, v) ∈ F.dump →
    ∃ a, F.writtenAt key = some a ∧ a < history.length ∧
      ∀ i w b, Copy history s i key w b → a < b
  /-- The flushes so far are in write order. -/
  order : DumpsInWriteOrder history

/-- The fresh store. -/
theorem stamped_new (mtMaxSz : UInt64) (sema : Option Bool) :
    Stamped [] (KVStore.new 2 mtMaxSz sema) 0 := by
  refine ⟨fun o _ key v w a b h => ?_, fun F hF => ?_, .nil⟩
  · cases h.2
  · cases hF

/-- A quiet step that changes no layer keeps all stamps. -/
theorem Stamped.quiet {history : List Event} {s s' : KVStore 2} {c : Fin 2} {e : Event}
    (hi : Stamped history s c) (he : Quiet e) (hlayer : ∀ i, s'.layer i = s.layer i) :
    Stamped (e :: history) s' c := by
  refine ⟨fun o ho key v w a b => ?_, fun F hF key v hv => ?_, ?_⟩
  · simp only [copy_quiet he hlayer]
    exact hi.newer o ho key v w a b
  · rw [flushes_quiet he] at hF
    obtain ⟨a, ha, hlt, hafter⟩ := hi.after F hF key v hv
    simp only [copy_quiet he hlayer, List.length_cons]
    exact ⟨a, ha, by omega, hafter⟩
  · rw [DumpsInWriteOrder, flushes_quiet he]
    exact hi.order

/-- An accepted write is newer than every copy and every flush. -/
theorem Stamped.accepted {history : List Event} {s s' : KVStore 2} {c d : Fin 2}
    {key value : Bytes} {m : MemTable} (hs : Shape s c) (hi : Stamped history s c)
    (ha : s.Accepted key value d m s') :
    Stamped (.put key value .writePass d :: history) s' d := by
  refine ⟨fun o ho k v w a b hov hdw => ?_, fun F hF k v hv => ?_, hi.order⟩
  · rcases copy_accepted ha hov with ⟨hod, _⟩ | ⟨_, hold⟩
    · exact absurd hod ho
    · rcases copy_accepted ha hdw with ⟨_, rfl, _, rfl⟩ | ⟨_, hcur⟩
      · exact lastPut_lt hold.2
      · by_cases hcd : c = d
        · subst hcd
          exact hi.newer o ho k v w a b hold hcur
        · -- The memtable switched to was empty, so it had no copy.
          have hnone := layer_of_empty (hs.spare_of_ne ha hcd) k
          rw [hcur.1] at hnone
          cases hnone
  · obtain ⟨a, hstamp, hlt, hafter⟩ := hi.after F hF k v hv
    refine ⟨a, hstamp, by rw [List.length_cons]; omega, fun i w b hcopy => ?_⟩
    rcases copy_accepted ha hcopy with ⟨_, _, _, rfl⟩ | ⟨_, hold⟩
    · exact hlt
    · exact hafter i w b hold

/-- The end of a flush that does not empty the current memtable over a shared
key leaves only newer copies behind. -/
theorem Stamped.cleared {history : List Event} {s : KVStore 2} {c t : Fin 2} (hs : Shape s c)
    (hd : Traced history s c) (hw : Dated history s) (hi : Stamped history s c)
    (ht : s.flushTarget = t.val) (hkeep : KeepsDumpOrder s (.endFlush t)) :
    Stamped (.endFlush t :: history) (s.cleared t) c := by
  refine ⟨fun o ho k v w a b hov hcw => ?_, ?_, ?_⟩
  · exact hi.newer o ho k v w a b ((copy_cleared ..).mp hov).2 ((copy_cleared ..).mp hcw).2
  · rintro F hF k v hv
    simp only [copy_cleared, List.length_cons]
    rcases List.mem_cons.mp hF with rfl | hF
    · -- The flush just completed: what remains is in the other memtable.
      obtain ⟨a, ha⟩ := hw.copy_of_dump hd ht hv
      refine ⟨a, by simp only [ha.2, Option.map_some], (lastPut_lt ha.2).trans (by omega), ?_⟩
      rintro i w b ⟨hit, hcopy⟩
      by_cases hct : c = t
      · subst hct
        rcases hkeep hs.cur c i rfl hit k with hnone | hnone
        · rw [ha.1] at hnone
          cases hnone
        · rw [hcopy.1] at hnone
          cases hnone
      · rw [eq_of_ne_ne hit hct] at hcopy
        exact hi.newer t (Ne.symm hct) k v w a b ha hcopy
    · obtain ⟨a, hstamp, hlt, hafter⟩ := hi.after F hF k v hv
      exact ⟨a, hstamp, by omega, fun i w b h => hafter i w b h.2⟩
  · refine List.pairwise_cons.mpr ⟨fun F hF k v w hv hw' => ?_, hi.order⟩
    obtain ⟨a, hstamp, _, hafter⟩ := hi.after F hF k v hv
    obtain ⟨b, hb⟩ := hw.copy_of_dump hd ht hw'
    exact ⟨a, b, hstamp, by simp only [hb.2, Option.map_some], hafter t w b hb⟩

/-- The stamps survive every effect that keeps the dump order. -/
theorem Stamped.next {history : List Event} {s s' : KVStore 2} {c c' : Fin 2} {e : Event}
    (hs : Shape s c) (hd : Traced history s c) (hw : Dated history s)
    (hi : Stamped history s c) (he : Effect s c e s' c') (hkeep : KeepsDumpOrder s e) :
    Stamped (e :: history) s' c' := by
  cases he with
  | refused _ => exact hi.quiet (by simp [Quiet]) fun _ => rfl
  | accepted ha => exact hi.accepted hs ha
  | read _ => exact hi.quiet trivial fun _ => rfl
  | noTarget _ _ => exact hi.quiet trivial fun _ => rfl
  | marked _ _ _ => exact hi.quiet trivial (layer_marked s _)
  | again _ => exact hi.quiet trivial fun _ => rfl
  | cleared ht _ => exact hi.cleared hs hd hw ht hkeep
  | forced => exact hi.quiet trivial fun _ => rfl

/-- A run all of whose flushes keep the dump order keeps the stamps. -/
theorem stamped_of_run {mtMaxSz : UInt64} {sema : Option Bool} {history : List Event}
    {s : KVStore 2} (hr : Run Step (KVStore.new 2 mtMaxSz sema) history s)
    (hkeep : EveryStep Step (KVStore.new 2 mtMaxSz sema) KeepsDumpOrder history) :
    ∃ c, Shape s c ∧ Traced history s c ∧ Dated history s ∧ Stamped history s c := by
  refine Run.invariant_of_everyStep (I := fun history s =>
    ∃ c, Shape s c ∧ Traced history s c ∧ Dated history s ∧ Stamped history s c)
    ⟨0, shape_new .., traced_new .., dated_new .., stamped_new ..⟩ ?_ hr hkeep
  rintro history s e t _ ⟨c, hs, hd, hw, hi⟩ hlast hstep
  obtain ⟨c', he⟩ := hs.effect hstep
  exact ⟨c', hs.next he, hd.next hs he, hw.next hd he, hi.next hs hd hw he hlast⟩

/-- In a run that never empties the current memtable over a key the other one
holds, every dumped pair is dated by the accepted write that wrote it, and the
dumps leave in write order: replaying them never makes an older value overwrite
a newer one. -/
theorem dumps_in_write_order {mtMaxSz : UInt64} {sema : Option Bool} {history : List Event}
    {s : KVStore 2} (hr : Run Step (KVStore.new 2 mtMaxSz sema) history s)
    (hkeep : EveryStep Step (KVStore.new 2 mtMaxSz sema) KeepsDumpOrder history) :
    (∀ F ∈ flushes history, DatedBy history F) ∧ DumpsInWriteOrder history := by
  obtain ⟨c, _, _, hw, hi⟩ := stamped_of_run hr hkeep
  exact ⟨hw.flushed, hi.order⟩

/-- A test for `KeepsDumpOrder`: the memtables other than the target are empty,
or the target is not current. -/
def keepsDumpOrderCheck (s : KVStore 2) : Event → Bool
  | .endFlush target =>
    decide (s.curMt ≠ target ∨ ∀ i : Fin 2, i.val ≠ target → (s.mt i).store.entries = [])
  | _ => true

/-- The test is sound. -/
theorem keepsDumpOrder_of_check (s : KVStore 2) (e : Event)
    (h : keepsDumpOrderCheck s e = true) : KeepsDumpOrder s e := by
  cases e with
  | endFlush target =>
    intro hcur c o hc ho key
    rcases of_decide_eq_true h with hne | hempty
    · exact absurd hcur hne
    · have hentries := hempty o fun heq => ho (Fin.val_inj.mp (heq.trans hc.symm))
      exact .inr (layer_of_empty (AList.ext hentries) key)
  | _ => trivial

/-- Two writes of one key into two memtables, flushed in the order of their
indices, which is the order of the writes here. -/
def alternateOps : List Op :=
  [.put [1] [10], .put [1] [20], .initFlush, .endFlush, .initFlush, .endFlush]

/-- Both flushes of a key written to both memtables leave in write order. -/
theorem dumps_in_write_order_alternate :
    ∃ history s, exec perform (KVStore.new 2 1 (some false)) alternateOps = some (history, s) ∧
      DumpsInWriteOrder history := by
  have hsome : (exec perform (KVStore.new 2 1 (some false)) alternateOps).isSome = true := by decide
  obtain ⟨⟨history, s⟩, hexec⟩ := Option.isSome_iff_exists.mp hsome
  have hkeep := everyStep_of_exec step_of_perform step_deterministic
    keepsDumpOrder_of_check .start everyStep_nil hexec (by decide)
  rw [List.append_nil] at hkeep
  exact ⟨history, s, hexec, (dumps_in_write_order (run_of_exec step_of_perform hexec) hkeep).2⟩

/-- Flushes do not always leave in write order: after the refill and one more
flush the value 20 leaves after 30, which was accepted later. -/
theorem older_value_flushed_last :
    ¬ ∀ (mtMaxSz : UInt64) (history : List Event) (s : KVStore 2),
      Run Step (KVStore.new 2 mtMaxSz (some false)) history s → DumpsInWriteOrder history := by
  intro hall
  have hmap : (exec perform (KVStore.new 2 1 (some false))
      (refillOps ++ [.initFlush, .endFlush])).map
      (fun r => (flushes r.1).map fun F => (F.dump, F.writtenAt [1])) =
        some [([([1], [20])], some 1), ([([1], [30])], some 4), ([([1], [10])], some 0)] := by
    rfl
  obtain ⟨⟨history, s⟩, hexec, hflushes⟩ := Option.map_eq_some_iff.mp hmap
  have horder := (hall 1 history s (run_of_exec step_of_perform hexec)).imp
    (S := fun later earlier : Flush => ∀ v w, ([1], v) ∈ earlier.dump → ([1], w) ∈ later.dump →
      ∃ a b, earlier.writtenAt [1] = some a ∧ later.writtenAt [1] = some b ∧ a < b)
    fun h => h [1]
  have hpairs := List.pairwise_map (f := fun F : Flush => (F.dump, F.writtenAt [1]))
    (R := fun later earlier => ∀ v w, ([1], v) ∈ earlier.1 → ([1], w) ∈ later.1 →
      ∃ a b, earlier.2 = some a ∧ later.2 = some b ∧ a < b) (l := flushes history)
  rw [hflushes] at hpairs
  obtain ⟨a, b, ha, hb, hlt⟩ := (List.pairwise_cons.mp (hpairs.mpr horder)).1
    ([([1], [30])], some 4) (by simp) [30] [20] (by simp) (by simp)
  cases ha
  cases hb
  omega

end CapsuleDB.EnclaveKvsFlush
