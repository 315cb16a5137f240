import MyKafka.Broker
import MyKafka.Directory

/-!
# What the config store touches

Whatever the kernel answers, an operation on a key touches the config file of the key only, and the
entries of the other keys stay as they are.
-/

namespace MyKafka

open Posix

/-! ## Association lists -/

section Assoc

variable {α β : Type} [DecidableEq α] {m : AList (fun _ : α => β)} {a a' : α} {b : β}

theorem kreplace_head (v : β) (l : List (Σ _ : α, β)) :
    List.kreplace a b (⟨a, v⟩ :: l : List (Σ _ : α, β)) = ⟨a, b⟩ :: l :=
  List.lookmap_cons_some _ _ (by simp)

theorem kreplace_tail {k : α} (hk : a ≠ k) (v : β) (l : List (Σ _ : α, β)) :
    List.kreplace a b (⟨k, v⟩ :: l : List (Σ _ : α, β)) = ⟨k, v⟩ :: List.kreplace a b l :=
  List.lookmap_cons_none _ _ (by simp [hk])

theorem lookup_replace (h : a ∈ m) (b : β) :
    (m.replace a b).lookup a' = if a' = a then some b else m.lookup a' := by
  obtain ⟨l, hl⟩ := m
  have hmem : a ∈ l.keys := h
  simp only [AList.replace, AList.lookup]
  clear h hl
  induction l with
  | nil => simp at hmem
  | cons s l ih =>
      obtain ⟨k, v⟩ := s
      by_cases hk : a = k
      · subst hk
        rw [kreplace_head]
        by_cases ha : a' = a
        · subst ha
          rw [if_pos rfl, List.dlookup_cons_eq]
        · rw [if_neg ha, List.dlookup_cons_ne _ _ ha, List.dlookup_cons_ne _ _ ha]
      · have hmem' : a ∈ l.keys := by
          rw [List.keys_cons, List.mem_cons] at hmem
          exact hmem.resolve_left hk
        rw [kreplace_tail hk]
        by_cases ha : a' = k
        · subst ha
          rw [List.dlookup_cons_eq, List.dlookup_cons_eq, if_neg (Ne.symm hk)]
        · rw [List.dlookup_cons_ne _ _ ha, List.dlookup_cons_ne _ _ ha, ih hmem']

theorem lookup_replace_same (h : a ∈ m) (b : β) : (m.replace a b).lookup a = some b := by
  rw [lookup_replace h, if_pos rfl]

theorem replace_of_notMem (h : a ∉ m) (b : β) : m.replace a b = m := by
  apply AList.ext
  refine List.kreplace_of_forall_not (β := fun _ => β) a b ?_
  intro b' hb'
  exact h (AList.mem_keys.mpr (List.mem_keys_of_mem hb'))

theorem lookup_replace_ne (h : a' ≠ a) (b : β) : (m.replace a b).lookup a' = m.lookup a' := by
  by_cases ha : a ∈ m
  · rw [lookup_replace ha, if_neg h]
  · rw [replace_of_notMem ha]

theorem lookup_insertNew (h : a ∉ m) (b : β) : (insertNew m a b).lookup a = some b := by
  rw [insertNew, if_neg h, AList.lookup_insert]

theorem lookup_insertNew_ne (h : a' ≠ a) (b : β) :
    (insertNew m a b).lookup a' = m.lookup a' := by
  rw [insertNew]
  split_ifs
  · rfl
  · rw [AList.lookup_insert_ne h]

theorem mem_of_lookup (h : m.lookup a = some b) : a ∈ m := by
  rw [← AList.lookup_isSome, h]
  rfl

/-- What is forgotten need not have been changed. -/
theorem erase_replace (m : AList (fun _ : α => β)) (a : α) (b : β) :
    (m.replace a b).erase a = m.erase a := by
  obtain ⟨l, hl⟩ := m
  apply AList.ext
  show (List.kreplace a b l).kerase a = l.kerase a
  clear hl
  induction l with
  | nil => rfl
  | cons s l ih =>
      obtain ⟨k, v⟩ := s
      by_cases hk : a = k
      · subst hk
        rw [kreplace_head]
        simp [List.kerase]
      · rw [kreplace_tail hk, List.kerase_cons_ne hk, List.kerase_cons_ne hk, ih]

theorem lookup_of_erase (h : (m.erase a).lookup a' = some b) : m.lookup a' = some b := by
  by_cases ha : a' = a
  · subst ha
    rw [AList.lookup_erase] at h
    cases h
  · rwa [AList.lookup_erase_ne ha] at h

end Assoc

namespace ConfigManager

/-! ## The entries of the other keys -/

/-- The path and the entries of the other keys are those of `c`. -/
structure Leaves (key : TopicPartition) (c c' : ConfigManager) : Prop where
  basePath : c'.basePath = c.basePath
  lookup : ∀ key' ≠ key, c'.configs.lookup key' = c.configs.lookup key'

namespace Leaves

theorem refl (key : TopicPartition) (c : ConfigManager) : Leaves key c c :=
  ⟨rfl, fun _ _ => rfl⟩

theorem insertNew (c : ConfigManager) (key : TopicPartition) (info : CfgInfo) :
    Leaves key c { c with configs := MyKafka.insertNew c.configs key info } :=
  ⟨rfl, fun _ h => lookup_insertNew_ne h info⟩

theorem replace (c : ConfigManager) (key : TopicPartition) (info : CfgInfo) :
    Leaves key c { c with configs := c.configs.replace key info } :=
  ⟨rfl, fun _ h => lookup_replace_ne h info⟩

theorem erase (c : ConfigManager) (key : TopicPartition) :
    Leaves key c { c with configs := c.configs.erase key } :=
  ⟨rfl, fun _ h => AList.lookup_erase_ne h⟩

end Leaves

/-- What the entry of a key holds: the descriptor the path of the key gave, and a mapping of it. -/
structure MapsFile (c : ConfigManager) (key : TopicPartition) (w : World) (info : CfgInfo) :
    Prop where
  fd : info.fd = (w.openCreate (c.path key)).1
  fd_open : info.fd ≠ .closed
  addr : ∃ w₁ : World, (w₁.mmap info.fd RawInfo.width).1 = info.addr
  addr_mapped : info.addr ≠ .failed

/-- How a config file is created or opened: the store stays as it was, or it gets the entry of a
file that is open and mapped. -/
inductive Adds (c : ConfigManager) (key : TopicPartition) (w : World) :
    Result Unit → ConfigManager → Prop
  | unchanged (e : Error) : Adds c key w (.error e) c
  | added (info : CfgInfo) (h : c.MapsFile key w info) :
    Adds c key w (.ok ()) { c with configs := insertNew c.configs key info }

theorem abandon_adds (c : ConfigManager) (key : TopicPartition) (fd : Desc) (msg closing : String)
    (w₀ w : World) : c.Adds key w₀ (c.abandon key fd msg closing w).1
      (c.abandon key fd msg closing w).2.1 := by
  unfold abandon
  split <;> exact .unchanged _

theorem create_adds (c : ConfigManager) (key : TopicPartition) (segSize partSize ttl : Int64)
    (w : World) : c.Adds key w (c.create key segSize partSize ttl w).1
      (c.create key segSize partSize ttl w).2.1 := by
  unfold create
  split_ifs
  · exact .unchanged _
  · split
    · exact .unchanged _
    · next fd w₁ hfd he =>
        split
        · exact abandon_adds ..
        · split
          · exact abandon_adds ..
          · split
            · exact abandon_adds ..
            · split
              split_ifs
              · exact abandon_adds ..
              · split
                · exact abandon_adds ..
                · next addr w₂ haddr he₂ =>
                    exact .added _ ⟨by rw [he], hfd, ⟨_, by rw [he₂]⟩, haddr⟩

theorem open_adds (c : ConfigManager) (key : TopicPartition) (w : World) :
    c.Adds key w (c.open key w).1 (c.open key w).2.1 := by
  unfold ConfigManager.open
  split_ifs
  · split
    · exact .unchanged _
    · next fd w₁ hfd he =>
        split
        · exact abandon_adds ..
        · next addr w₂ haddr he₂ =>
            exact .added _ ⟨by rw [he], hfd, ⟨_, by rw [he₂]⟩, haddr⟩
  · exact .unchanged _

theorem Adds.leaves {c c' : ConfigManager} {key : TopicPartition} {w : World} {r : Result Unit}
    (h : c.Adds key w r c') : Leaves key c c' := by
  cases h with
  | unchanged e => exact .refl key c
  | added info _ => exact .insertNew c key info

theorem create_leaves (c : ConfigManager) (key : TopicPartition) (segSize partSize ttl : Int64)
    (w : World) : Leaves key c (c.create key segSize partSize ttl w).2.1 :=
  (c.create_adds key segSize partSize ttl w).leaves

theorem open_leaves (c : ConfigManager) (key : TopicPartition) (w : World) :
    Leaves key c (c.open key w).2.1 :=
  (c.open_adds key w).leaves

theorem update_leaves (c : ConfigManager) (key : TopicPartition) (info : RawInfo) (w : World) :
    Leaves key c (c.update key info w).2.1 := by
  unfold update
  split
  · exact .refl key c
  · exact .replace c key _

theorem updateCommitOffset_leaves (c : ConfigManager) (key : TopicPartition) (offset : Int64)
    (w : World) : Leaves key c (c.updateCommitOffset key offset w).2.1 := by
  unfold updateCommitOffset
  split
  · exact .refl key c
  · exact .replace c key _

theorem closeKey_leaves (c : ConfigManager) (key : TopicPartition) (w : World) :
    Leaves key c (c.closeKey key w).2.1 := by
  unfold closeKey
  split
  · exact .refl key c
  · split
    · exact .replace c key _
    · exact .erase c key

theorem remove_leaves (c : ConfigManager) (key : TopicPartition) (w : World) :
    Leaves key c (c.remove key w).2.1 := by
  have hk := c.closeKey_leaves key w
  unfold remove
  split
  · next he =>
      rw [he] at hk
      exact hk
  · next he =>
      rw [he] at hk
      exact hk

/-! ## Frames -/

variable {S : Path → Prop} {I : ℕ → Prop} {w₀ w : World} {c : ConfigManager}
  {key : TopicPartition} {info : CfgInfo}

theorem abandon_frame (h : Frame S I w₀ w) (fd : Desc) (msg closing : String) :
    Frame S I w₀ (c.abandon key fd msg closing w).2.2 := by
  have hc := h.close fd
  unfold abandon
  split
  · next w₁ he =>
      rw [he] at hc
      exact hc
  · next w₁ he =>
      rw [he] at hc
      exact hc

theorem create_frame (h : Frame S I w₀ w) (hr : Inside S (c.path key)) (segSize partSize ttl : Int64) :
    Frame S I w₀ (c.create key segSize partSize ttl w).2.2 := by
  have ho := h.openCreate hr
  unfold create
  split_ifs
  · exact h
  · split
    · next w₁ he =>
        rw [he] at ho
        exact ho.1
    · next fd w₁ hfd he =>
        rw [he] at ho
        have hs := ho.1.fstat fd
        split
        · next w₂ he₂ =>
            rw [he₂] at hs
            exact abandon_frame hs ..
        · next buf w₂ he₂ =>
            rw [he₂] at hs
            have ht := hs.ftruncate ho.2 RawInfo.width
            split
            · next w₃ he₃ =>
                rw [he₃] at ht
                exact abandon_frame ht ..
            · next w₃ he₃ =>
                rw [he₃] at ht
                have hl := ht.lseek fd ((RawInfo.width : ℤ) - 1)
                split
                · next w₄ he₄ =>
                    rw [he₄] at hl
                    exact abandon_frame hl ..
                · next w₄ he₄ =>
                    rw [he₄] at hl
                    have hp := hl.pwrite ho.2 (RawInfo.width - 1) [0]
                    split
                    next n w₅ he₅ =>
                      rw [he₅] at hp
                      split_ifs
                      · exact abandon_frame hp ..
                      · have hm := hp.mmap ho.2 RawInfo.width
                        split
                        · next w₆ he₆ =>
                            rw [he₆] at hm
                            exact abandon_frame hm.1 ..
                        · next addr w₆ haddr he₆ =>
                            rw [he₆] at hm
                            exact hm.1.store hm.2 0 _

theorem open_frame (h : Frame S I w₀ w) (hr : Inside S (c.path key)) :
    Frame S I w₀ (c.open key w).2.2 := by
  have ho := h.openCreate hr
  unfold ConfigManager.open
  split_ifs
  · split
    · next w₁ he =>
        rw [he] at ho
        exact ho.1
    · next fd w₁ hfd he =>
        rw [he] at ho
        have hm := ho.1.mmap ho.2 RawInfo.width
        split
        · next w₂ he₂ =>
            rw [he₂] at hm
            exact abandon_frame hm.1 ..
        · next addr w₂ haddr he₂ =>
            rw [he₂] at hm
            exact hm.1
  · exact h

theorem update_frame (h : Frame S I w₀ w)
    (hc : ∀ info, c.configs.lookup key = some info → info.addr.Mine I w₀.fs) (info : RawInfo) :
    Frame S I w₀ (c.update key info w).2.2 := by
  unfold update
  split
  · exact h
  · next found hfound => exact h.store (hc found hfound) 0 _

theorem updateCommitOffset_frame (h : Frame S I w₀ w)
    (hc : ∀ info, c.configs.lookup key = some info → info.addr.Mine I w₀.fs) (offset : Int64) :
    Frame S I w₀ (c.updateCommitOffset key offset w).2.2 := by
  unfold updateCommitOffset
  split
  · exact h
  · next found hfound => exact h.store (hc found hfound) 24 _

theorem closeInfo_frame (c : ConfigManager) (key : TopicPartition) (info : CfgInfo)
    (h : Frame S I w₀ w) : Frame S I w₀ (c.closeInfo key info w).2.2 := by
  have hm := h.munmap info.addr
  unfold closeInfo
  split
  · next w₁ he =>
      rw [he] at hm
      exact hm
  · next w₁ he =>
      rw [he] at hm
      have hc := hm.close info.fd
      split
      · next w₂ he₂ =>
          rw [he₂] at hc
          exact hc
      · next w₂ he₂ =>
          rw [he₂] at hc
          exact hc

theorem closeKey_frame (c : ConfigManager) (key : TopicPartition) (h : Frame S I w₀ w) :
    Frame S I w₀ (c.closeKey key w).2.2 := by
  unfold closeKey
  split
  · exact h
  · next found _ =>
      have hi := closeInfo_frame c key found h
      split
      · next e info w₁ he =>
          rw [he] at hi
          exact hi
      · next info w₁ he =>
          rw [he] at hi
          exact hi

theorem remove_frame (h : Frame S I w₀ w) (hr : Inside S (c.path key)) :
    Frame S I w₀ (c.remove key w).2.2 := by
  have hk := closeKey_frame c key h
  have hb := (c.closeKey_leaves key w).basePath
  unfold remove
  split
  · next e c₁ w₁ he =>
      rw [he] at hk
      exact hk
  · next c₁ w₁ he =>
      rw [he] at hk hb
      have hpath : c₁.path key = c.path key := by
        rw [path, path, show c₁.basePath = c.basePath from hb]
      exact hk.remove (hpath ▸ hr)

end ConfigManager

end MyKafka
