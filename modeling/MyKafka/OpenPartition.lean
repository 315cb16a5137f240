import MyKafka.ConfigFrame
import MyKafka.OpenFiles
import MyKafka.Partition

/-!
# What a partition and the config store have open

The inodes of a partition are those of its segments, and those of a key in the config store are the
one of its config file. What the operations add was handed out by the time they return.
-/

namespace MyKafka

open Posix LittleEndian

variable {w : World}

/-! ## Partitions -/

namespace Partition

def Uses (p : Partition) (i : ℕ) : Prop := ∃ s ∈ p.segments, s.Uses i

variable {p : Partition} {s : Segment} {U V : ℕ → Prop} {w₀ : World} {i : ℕ}

theorem Uses.of_older (h : ∃ s ∈ p.older, s.Uses i) : p.Uses i := by
  obtain ⟨s, hs, hi⟩ := h
  exact ⟨s, List.mem_append_left _ hs, hi⟩

theorem Uses.of_active (hs : p.activeSegment = some s) (hi : s.Uses i) : p.Uses i :=
  ⟨s, List.mem_append_right _ (Option.mem_toList.mpr hs), hi⟩

theorem Uses.push (h : { p with older := p.older ++ [s] }.Uses i) : p.Uses i ∨ s.Uses i := by
  obtain ⟨t, ht, hi⟩ := h
  rcases List.mem_append.mp ht with ht | ht
  · rcases List.mem_append.mp ht with ht | ht
    · exact Or.inl (.of_older ⟨t, ht, hi⟩)
    · exact Or.inr (List.mem_singleton.mp ht ▸ hi)
  · exact Or.inl (.of_active (Option.mem_toList.mp ht) hi)

theorem Uses.activate (h : { p with activeSegment := some s }.Uses i) : p.Uses i ∨ s.Uses i := by
  obtain ⟨t, ht, hi⟩ := h
  rcases List.mem_append.mp ht with ht | ht
  · exact Or.inl (.of_older ⟨t, ht, hi⟩)
  · exact Or.inr (Option.some.inj (Option.mem_toList.mp ht) ▸ hi)

theorem cleanSegments_grows {ss : List Segment} : ∀ {p : Partition} {w : World},
    Grows U (fun i => (∃ s ∈ ss, s.Uses i) ∨ p.Uses i) w₀ w →
    Grows U (cleanSegments ss p w).2.1.Uses w₀ (cleanSegments ss p w).2.2 := by
  induction ss with
  | nil => exact fun h => h.sub (fun i => Or.inr)
  | cons s ss ih =>
      intro p w h
      have hsplit : Grows U (fun i => ((∃ t ∈ ss, t.Uses i) ∨ p.Uses i) ∨ s.Uses i) w₀ w := by
        refine h.sub ?_
        rintro i ((⟨t, ht, hi⟩ | hi) | hi)
        · exact Or.inl ⟨t, List.mem_cons_of_mem s ht, hi⟩
        · exact Or.inr hi
        · exact Or.inl ⟨s, List.mem_cons_self, hi⟩
      have hpush : ∀ (t : Segment) i, ((∃ t ∈ ss, t.Uses i) ∨
          { p with older := p.older ++ [t] }.Uses i) →
          ((∃ t ∈ ss, t.Uses i) ∨ p.Uses i) ∨ t.Uses i := by
        rintro t i (hi | hi)
        · exact Or.inl (Or.inl hi)
        · exact hi.push.imp_left Or.inr
      have hd := hsplit.trans ((s.deleteSegment_grows w).beside _)
      rw [cleanSegments]
      split_ifs
      · split
        · next e t w₁ he =>
            rw [he] at hd
            have hr := ih (hd.sub (hpush t))
            split
            · next he' =>
                rw [he'] at hr
                exact hr
            · next he' =>
                rw [he'] at hr
                exact hr
        · next t w₁ he =>
            rw [he] at hd
            exact ih (Segment.destroy_grows (hd.sub (fun i => Or.inl)) t)
      · exact ih (hsplit.sub (hpush s))

theorem cleanOldSegments_grows (h : Grows U p.Uses w₀ w) :
    Grows U (p.cleanOldSegments w).2.1.Uses w₀ (p.cleanOldSegments w).2.2 := by
  refine cleanSegments_grows (h.sub ?_)
  rintro i (hi | ⟨s, hs, hi⟩)
  · exact .of_older hi
  · exact .of_active (Option.mem_toList.mp (by simpa [segments] using hs)) hi

theorem openSegments_grows (bases : List ℤ) : ∀ {p : Partition} {w : World},
    Grows U p.Uses w₀ w →
    Grows U (openSegments bases p w).2.1.Uses w₀ (openSegments bases p w).2.2 := by
  induction bases with
  | nil => exact fun h => h
  | cons base bases ih =>
      intro p w h
      have ho := Segment.open_new_grows h p.path base p.maxSegmentSize
      rw [openSegments]
      split
      · next e s w₁ he =>
          rw [he] at ho
          exact Segment.destroy_grows (ho.sub (fun i => Or.inl)) s
      · next s w₁ he =>
          rw [he] at ho
          exact ih (ho.sub (fun i hi => Uses.push hi))

theorem openFiles_grows (h : Grows U p.Uses w₀ w) :
    Grows U (p.openFiles w).2.1.Uses w₀ (p.openFiles w).2.2 := by
  have ho := openSegments_grows (fillFilesList w p.path) h
  unfold openFiles
  split
  · next e p₁ w₁ he =>
      rw [he] at ho
      exact ho
  · next p₁ w₁ he =>
      rw [he] at ho
      split
      · next s hs =>
          have hc := cleanOldSegments_grows (p := { p₁ with
            older := p₁.older.dropLast, activeSegment := some s }) (ho.sub (by
              rintro i ⟨t, ht, hi⟩
              rcases List.mem_append.mp ht with ht | ht
              · exact .of_older ⟨t, List.mem_of_mem_dropLast ht, hi⟩
              · obtain rfl := Option.some.inj (Option.mem_toList.mp ht)
                exact .of_older ⟨_, List.mem_of_getLast? hs, hi⟩))
          split
          next he' =>
            rw [he'] at hc
            exact hc
      · have hnew := Segment.open_new_grows ho p₁.path 0 p₁.maxSegmentSize
        split
        · next e s w₂ he' =>
            rw [he'] at hnew
            exact Segment.destroy_grows (hnew.sub (fun i => Or.inl)) s
        · next s w₂ he' =>
            rw [he'] at hnew
            have hc := cleanOldSegments_grows (hnew.sub (fun i hi => Uses.activate hi))
            split
            next he'' =>
              rw [he''] at hc
              exact hc

theorem open_grows (p : Partition) (w : World) :
    Grows p.Uses (p.open w).2.1.Uses w (p.open w).2.2 := by
  have hd := (Grows.refl p.Uses w).same (w.nextIno_createDirectories p.path)
  unfold Partition.open
  split
  · next w₁ he =>
      rw [he] at hd
      exact hd
  · next w₁ he =>
      rw [he] at hd
      exact openFiles_grows hd

theorem roll_grows {active : Segment} (ha : p.activeSegment = some active) (w : World) :
    Grows p.Uses (p.roll active w).2.1.Uses w (p.roll active w).2.2 := by
  have ho := Segment.open_new_grows (.refl p.Uses w) p.path active.nextOffset p.maxSegmentSize
  unfold roll
  split_ifs
  · split
    · next e s w₁ he =>
        rw [he] at ho
        exact Segment.destroy_grows (ho.sub (fun i => Or.inl)) s
    · next s w₁ he =>
        rw [he] at ho
        have ho' : Grows p.Uses
            { p with older := p.older ++ [active], activeSegment := some s }.Uses w w₁ := by
          refine ho.sub (fun i hi => ?_)
          rcases Uses.activate (p := { p with older := p.older ++ [active] }) hi with hi | hi
          · exact Or.inl (hi.push.elim id (fun hi => .of_active ha hi))
          · exact Or.inr hi
        have hc := cleanOldSegments_grows ho'
        dsimp only
        split_ifs
        · exact hc
        · exact ho'
  · exact .refl p.Uses w

theorem write_grows (p : Partition) (payload : Payload) (w : World) :
    Grows p.Uses (p.write payload w).2.1.Uses w (p.write payload w).2.2 := by
  unfold Partition.write
  split_ifs
  · exact .refl p.Uses w
  · split
    · exact .refl p.Uses w
    · next active ha =>
        have hr := roll_grows ha w
        split
        · next e p₁ w₁ he =>
            rw [he] at hr
            exact hr
        · next p₁ w₁ he =>
            rw [he] at hr
            split
            · exact hr
            · next active₁ ha₁ =>
                have hw := (active₁.write_grows payload w₁).beside p₁.Uses
                have hboth := hr.trans (hw.of_sub (fun i hi => hi.elim id (.of_active ha₁)))
                split
                · next e s w₂ he' =>
                    rw [he'] at hboth
                    exact hboth.sub (fun i hi => Uses.activate hi)
                · next offset s w₂ he' =>
                    rw [he'] at hboth
                    exact hboth.sub (fun i hi => Uses.activate (p := p₁) hi)

theorem closeSegments_grows (ss : List Segment) : ∀ w : World,
    Grows (fun i => ∃ s ∈ ss, s.Uses i) (fun i => ∃ s ∈ (closeSegments ss w).2.1, s.Uses i) w
      (closeSegments ss w).2.2 := by
  induction ss with
  | nil => exact fun w => .refl _ w
  | cons s ss ih =>
      intro w
      have hjoin : ∀ i, (∃ t ∈ ss, t.Uses i) ∨ s.Uses i → ∃ t ∈ s :: ss, t.Uses i := by
        rintro i (⟨t, ht, hi⟩ | hi)
        · exact ⟨t, List.mem_cons_of_mem s ht, hi⟩
        · exact ⟨s, List.mem_cons_self, hi⟩
      have hc := ((s.close_grows w).beside (fun i => ∃ t ∈ ss, t.Uses i)).of_sub hjoin
      rw [closeSegments]
      split
      · next e t w₁ he =>
          rw [he] at hc
          refine hc.sub ?_
          rintro i ⟨u, hu, hi⟩
          rcases List.mem_cons.mp hu with rfl | hu
          · exact Or.inr hi
          · exact Or.inl ⟨u, hu, hi⟩
      · next t w₁ he =>
          rw [he] at hc
          have hr := (Segment.destroy_grows hc t).trans (((ih (t.destroy w₁)).beside t.Uses).of_sub
            (fun i => Or.symm))
          split
          next res ts w₂ he' =>
            rw [he'] at hr
            refine hr.sub ?_
            rintro i ⟨u, hu, hi⟩
            rcases List.mem_cons.mp hu with rfl | hu
            · exact Or.inl hi
            · exact Or.inr ⟨u, hu, hi⟩

theorem close_grows (p : Partition) (w : World) :
    Grows p.Uses (p.close w).2.1.Uses w (p.close w).2.2 := by
  have hc := closeSegments_grows p.segments w
  unfold Partition.close
  split
  · next e ss w₁ he =>
      rw [he] at hc
      exact hc.sub (by simp [Uses, segments])
  · next ss w₁ he =>
      rw [he] at hc
      exact hc.sub (by simp [Uses, segments])

theorem deletePartition_grows (p : Partition) (w : World) :
    Grows p.Uses (p.deletePartition w).2.1.Uses w (p.deletePartition w).2.2 := by
  have hc := p.close_grows w
  unfold Partition.deletePartition
  split
  · next e p₁ w₁ he =>
      rw [he] at hc
      exact hc
  · next p₁ w₁ he =>
      rw [he] at hc
      exact hc.same (w₁.nextIno_removeAll p₁.path)

/-! ### Reading -/

theorem findSegmentLoop_mem {segments : List Segment} {o : ℤ} (fuel : ℕ) :
    ∀ {first last pos foundOffset : ℤ} {found r : Option Segment},
    findSegmentLoop segments o fuel first last pos foundOffset found = some r →
    (∀ s, found = some s → s ∈ segments) → ∀ s, r = some s → s ∈ segments := by
  induction fuel with
  | zero => exact fun h => (by cases h)
  | succ fuel ih =>
      intro first last pos foundOffset found r h hfound
      rw [findSegmentLoop] at h
      split_ifs at h
      · split at h
        · cases h
          exact hfound
        · next s hs =>
            split_ifs at h
            · exact ih h hfound
            · refine ih h (fun t ht => ?_)
              obtain rfl := Option.some.inj ht
              exact List.mem_of_getElem? hs
      · cases h
        exact hfound

theorem findSegment_mem {o : ℤ} (h : p.findSegment o = some s) : s ∈ p.segments := by
  unfold findSegment at h
  split_ifs at h
  dsimp only at h
  cases hr : findSegmentLoop p.segments o (p.segments.length + 1) 0 (p.segments.length - 1)
      (Int.tdiv (0 + (p.segments.length - 1)) 2) (-1) none with
  | none =>
      rw [hr] at h
      cases h
  | some r =>
      rw [hr] at h
      exact findSegmentLoop_mem _ hr (fun t ht => by cases ht) s h

theorem fs_readAt (p : Partition) (o : ℤ) (w : World) : (p.readAt o w).2.2.fs = w.fs := by
  unfold Partition.readAt
  split_ifs
  · rfl
  · split
    · rfl
    · exact Segment.fs_readAt ..

theorem readAt_same {w' : World} (hw : w.Calm) (hw' : w'.Calm) (h : SameData p.Uses w w') (o : ℤ) :
    (p.readAt o w').1 = (p.readAt o w).1 ∧ (p.readAt o w').2.1 = (p.readAt o w).2.1 := by
  unfold Partition.readAt
  split_ifs
  · exact ⟨rfl, rfl⟩
  · split
    · exact ⟨rfl, rfl⟩
    · next s hs =>
        exact Segment.readAt_same hw hw' (h.sub (fun i hi => ⟨s, findSegment_mem hs, hi⟩)) _

end Partition

/-! ## Config files -/

def CfgInfo.Uses (cfg : CfgInfo) (i : ℕ) : Prop := cfg.fd.Uses i ∨ cfg.addr.Uses i

namespace ConfigManager

/-- What the store has open for a key. -/
def Uses (c : ConfigManager) (key : TopicPartition) (i : ℕ) : Prop :=
  ∃ cfg, c.configs.lookup key = some cfg ∧ cfg.Uses i

variable {c : ConfigManager} {key : TopicPartition} {U V : ℕ → Prop} {w₀ : World} {i : ℕ}

theorem Uses.insertNew {cfg : CfgInfo}
    (h : { c with configs := MyKafka.insertNew c.configs key cfg }.Uses key i) :
    c.Uses key i ∨ cfg.Uses i := by
  obtain ⟨cfg', hcfg, hi⟩ := h
  by_cases hmem : key ∈ c.configs
  · rw [MyKafka.insertNew, if_pos hmem] at hcfg
    exact Or.inl ⟨cfg', hcfg, hi⟩
  · rw [MyKafka.insertNew, if_neg hmem, AList.lookup_insert] at hcfg
    exact Or.inr (Option.some.inj hcfg ▸ hi)

theorem nextIno_abandon (c : ConfigManager) (key : TopicPartition) (fd : Desc)
    (msg closing : String) (w : World) :
    (c.abandon key fd msg closing w).2.2.fs.nextIno = w.fs.nextIno := by
  have hc := w.nextIno_close fd
  unfold abandon
  split <;> simp_all

/-- A new entry has open what the path of the key gave. -/
theorem Adds.opened {c c' : ConfigManager} {key : TopicPartition} {w : World} {r : Result Unit}
    (hadds : c.Adds key w r c') {i : ℕ} (h : c'.Uses key i) :
    c.Uses key i ∨ (w.openCreate (c.path key)).1.Uses i := by
  cases hadds with
  | unchanged e => exact Or.inl h
  | added info hinfo =>
      obtain ⟨w₁, hmap⟩ := hinfo.addr
      rw [← hinfo.fd]
      rcases Uses.insertNew h with hi | hi | hi
      · exact Or.inl hi
      · exact Or.inr hi
      · exact Or.inr (World.mmap_uses (Prod.ext hmap rfl) hi)

theorem create_opened (c : ConfigManager) (key : TopicPartition) (segSize partSize ttl : Int64)
    (w : World) {i : ℕ} (h : (c.create key segSize partSize ttl w).2.1.Uses key i) :
    c.Uses key i ∨ (w.openCreate (c.path key)).1.Uses i :=
  (c.create_adds key segSize partSize ttl w).opened h

theorem open_opened (c : ConfigManager) (key : TopicPartition) (w : World) {i : ℕ}
    (h : (c.open key w).2.1.Uses key i) :
    c.Uses key i ∨ (w.openCreate (c.path key)).1.Uses i :=
  (c.open_adds key w).opened h

theorem create_grows (c : ConfigManager) (key : TopicPartition) (segSize partSize ttl : Int64)
    (w : World) : Grows (c.Uses key) ((c.create key segSize partSize ttl w).2.1.Uses key) w
      (c.create key segSize partSize ttl w).2.2 := by
  have hopen := w.openCreate_grows (c.path key) (c.Uses key)
  suffices hnext : (w.openCreate (c.path key)).2.fs.nextIno ≤
      (c.create key segSize partSize ttl w).2.2.fs.nextIno ∨
      (c.create key segSize partSize ttl w).2 = (c, w) by
    rcases hnext with hnext | hsame
    · refine ⟨hopen.next.trans hnext, fun i hi => ?_⟩
      exact (hopen.uses i (c.create_opened key segSize partSize ttl w hi)).imp_right
        (fun hlt => hlt.trans_le hnext)
    · rw [hsame]
      exact .refl _ w
  unfold create
  split_ifs
  · exact Or.inr rfl
  · refine Or.inl (Nat.le_of_eq ?_)
    split
    · next w₁ he => rw [he]
    · next fd w₁ hfd he =>
        rw [he]
        have h₂ := w₁.nextIno_fstat fd
        split
        · next w₂ he₂ =>
            rw [he₂] at h₂
            rw [nextIno_abandon, h₂]
        · next buf w₂ he₂ =>
            rw [he₂] at h₂
            have h₃ := (w₂.nextIno_ftruncate fd RawInfo.width).trans h₂
            split
            · next w₃ he₃ =>
                rw [he₃] at h₃
                rw [nextIno_abandon, h₃]
            · next w₃ he₃ =>
                rw [he₃] at h₃
                have h₄ := (w₃.nextIno_lseek fd ((RawInfo.width : ℤ) - 1)).trans h₃
                split
                · next w₄ he₄ =>
                    rw [he₄] at h₄
                    rw [nextIno_abandon, h₄]
                · next w₄ he₄ =>
                    rw [he₄] at h₄
                    have h₅ := (w₄.nextIno_pwrite fd (RawInfo.width - 1) [0]).trans h₄
                    split
                    next n w₅ he₅ =>
                      rw [he₅] at h₅
                      split_ifs
                      · rw [nextIno_abandon, h₅]
                      · have h₆ := (w₅.nextIno_mmap fd RawInfo.width).trans h₅
                        split
                        · next w₆ he₆ =>
                            rw [he₆] at h₆
                            rw [nextIno_abandon, h₆]
                        · next addr w₆ haddr he₆ =>
                            rw [he₆] at h₆
                            exact ((w₆.nextIno_store addr 0 _).trans h₆).symm

theorem open_grows (c : ConfigManager) (key : TopicPartition) (w : World) :
    Grows (c.Uses key) ((c.open key w).2.1.Uses key) w (c.open key w).2.2 := by
  have hopen := w.openCreate_grows (c.path key) (c.Uses key)
  suffices hnext : (w.openCreate (c.path key)).2.fs.nextIno ≤ (c.open key w).2.2.fs.nextIno ∨
      (c.open key w).2 = (c, w) by
    rcases hnext with hnext | hsame
    · refine ⟨hopen.next.trans hnext, fun i hi => ?_⟩
      exact (hopen.uses i (c.open_opened key w hi)).imp_right (fun hlt => hlt.trans_le hnext)
    · rw [hsame]
      exact .refl _ w
  unfold ConfigManager.open
  split_ifs
  · refine Or.inl (Nat.le_of_eq ?_)
    split
    · next w₁ he => rw [he]
    · next fd w₁ hfd he =>
        rw [he]
        have h₂ := w₁.nextIno_mmap fd RawInfo.width
        split
        · next w₂ he₂ =>
            rw [he₂] at h₂
            rw [nextIno_abandon, h₂]
        · next addr w₂ haddr he₂ =>
            rw [he₂] at h₂
            exact h₂.symm
  · exact Or.inr rfl

theorem updateCommitOffset_uses (c : ConfigManager) (key : TopicPartition) (offset : Int64)
    (w : World) {i : ℕ} (h : (c.updateCommitOffset key offset w).2.1.Uses key i) :
    c.Uses key i := by
  unfold updateCommitOffset at h
  split at h
  · exact h
  · next found hfound =>
      obtain ⟨cfg, hcfg, hi⟩ := h
      rw [lookup_replace_same (mem_of_lookup hfound), Option.some.injEq] at hcfg
      subst hcfg
      exact ⟨found, hfound, hi⟩

theorem nextIno_updateCommitOffset (c : ConfigManager) (key : TopicPartition) (offset : Int64)
    (w : World) : (c.updateCommitOffset key offset w).2.2.fs.nextIno = w.fs.nextIno := by
  unfold updateCommitOffset
  split
  · rfl
  · exact w.nextIno_store ..

theorem closeInfo_uses (c : ConfigManager) (key : TopicPartition) (cfg : CfgInfo) (w : World) :
    (c.closeInfo key cfg w).2.2.fs = w.fs ∧
      ∀ i, (c.closeInfo key cfg w).2.1.Uses i → cfg.Uses i := by
  have hm := w.fs_munmap cfg.addr
  have hclosed : ∀ i, ¬ { cfg with fd := cfg.fd.released, addr := cfg.addr.released }.Uses i := by
    rintro i (hi | hi)
    · exact Desc.not_uses_released _ i hi
    · exact Addr.not_uses_released _ i hi
  unfold closeInfo
  split
  · next w₁ he =>
      rw [he] at hm
      exact ⟨hm, fun i => id⟩
  · next w₁ he =>
      rw [he] at hm
      have hc := (w₁.fs_close cfg.fd).trans hm
      split
      · next w₂ he₂ =>
          rw [he₂] at hc
          exact ⟨hc, fun i hi => absurd hi (hclosed i)⟩
      · next w₂ he₂ =>
          rw [he₂] at hc
          exact ⟨hc, fun i hi => absurd hi (hclosed i)⟩

theorem closeKey_uses (c : ConfigManager) (key : TopicPartition) (w : World) :
    (c.closeKey key w).2.2.fs = w.fs ∧
      ∀ i, (c.closeKey key w).2.1.Uses key i → c.Uses key i := by
  unfold closeKey
  split
  · exact ⟨rfl, fun i => id⟩
  · next found hfound =>
      obtain ⟨hfs, huses⟩ := c.closeInfo_uses key found w
      split
      · next e cfg w₁ he =>
          rw [he] at hfs huses
          refine ⟨hfs, ?_⟩
          rintro i ⟨cfg', hcfg, hi⟩
          rw [lookup_replace_same (mem_of_lookup hfound), Option.some.injEq] at hcfg
          subst hcfg
          exact ⟨found, hfound, huses i hi⟩
      · next cfg w₁ he =>
          rw [he] at hfs
          refine ⟨hfs, ?_⟩
          rintro i ⟨cfg', hcfg, hi⟩
          rw [AList.lookup_erase] at hcfg
          cases hcfg

theorem remove_uses (c : ConfigManager) (key : TopicPartition) (w : World) :
    (c.remove key w).2.2.fs.nextIno = w.fs.nextIno ∧
      ∀ i, (c.remove key w).2.1.Uses key i → c.Uses key i := by
  have hk := c.closeKey_uses key w
  unfold remove
  split
  · next e c₁ w₁ he =>
      rw [he] at hk
      exact ⟨congrArg _ hk.1, hk.2⟩
  · next c₁ w₁ he =>
      rw [he] at hk
      exact ⟨(w₁.nextIno_remove (c₁.path key)).trans (congrArg _ hk.1), hk.2⟩

end ConfigManager

end MyKafka
