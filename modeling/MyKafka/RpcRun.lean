import Mathlib.Tactic
import MyKafka.RpcServer

/-!
# The life cycle of service objects

Every object is in one place: its request is registered, a thread works on it, its answer is under
way, or its event came without `ok` and nobody will ever look at it again.
-/

namespace MyKafka

/-- The object a thread is going to use. -/
def Worker.object? : Worker → Option RpcService
  | .proceeding x => some x
  | .processing x (_ :: _) => some x
  | _ => none

namespace RpcServer

variable {s s' : RpcServer} {x y : RpcService} {kind : ServiceKind}

/-- The number of armed services of a class. -/
def armed (s : RpcServer) (kind : ServiceKind) : ℕ := s.requested.countP (fun x => x.kind = kind)

/-- A thread that took the event of a new service of this class and has not created the successor. -/
def unserved (objects : AList (fun _ : RpcService => CallStatus)) (kind : ServiceKind) :
    Worker → Bool
  | .proceeding x => x.kind = kind ∧ objects.lookup x = some .process
  | .processing _ todo => .create kind ∈ todo
  | _ => false

/-- The number of services of a class whose event is taken but not yet processed. -/
def unprocessed (s : RpcServer) (kind : ServiceKind) : ℕ :=
  s.threads.countP (unserved s.objects kind)

/-- A thread whose call of `specificHandle` has created the service of this class. -/
def handled (kind : ServiceKind) : Worker → Bool
  | .handling todo => kind ∉ todo
  | _ => true

/-- The number of threads that have called `specificHandle`. -/
def called (s : RpcServer) (kind : ServiceKind) : ℕ := s.threads.countP (handled kind)

/-- Objects are neither lost nor used twice. -/
structure Accounted (s : RpcServer) : Prop where
  once : s.processed.Nodup
  untouched : s.stray = []
  deleted : ∀ x ∈ s.finished, x ∈ s.objects → Worker.proceeding x ∈ s.threads
  live : ∀ x, x ∈ s.objects ↔
    x ∈ s.requested ∨ (∃ th ∈ s.threads, th.object? = some x) ∨ x ∈ s.finishing

/-- Every class has as many armed services as there are threads to have created one. -/
def Balanced (s : RpcServer) : Prop := ∀ kind, s.armed kind + s.unprocessed kind = s.called kind

/-! ## The invariant -/

/-- The number of threads that work on the object. -/
def held (s : RpcServer) (x : RpcService) : ℕ := s.threads.countP (fun th => th.object? = some x)

/-- A thread knows what it is doing. -/
def Sound (objects : AList (fun _ : RpcService => CallStatus)) : Worker → Prop
  | .handling todo => todo.Nodup
  | .processing x todo => todo <:+ x.process ∧ (todo ≠ [] → objects.lookup x = some .finish)
  | _ => True

/-- The event of the objects in `lost` came without `ok`. -/
structure Inv (s : RpcServer) (lost : List RpcService) : Prop where
  place : ∀ x, s.requested.count x + s.held x + s.finishing.count x + lost.count x =
    if x ∈ s.objects then 1 else 0
  fresh : ∀ x, x ∈ s.objects ∨ x ∈ s.processed ∨ x ∈ s.finished → x.num < s.count
  requested : ∀ x ∈ s.requested, s.objects.lookup x = some .process
  finishing : ∀ x ∈ s.finishing, s.objects.lookup x = some .finish
  sound : ∀ th ∈ s.threads, Sound s.objects th
  once : s.processed.Nodup
  processed : ∀ x ∈ s.processed, s.objects.lookup x ≠ some .process
  finished : ∀ x ∈ s.finished, s.objects.lookup x ≠ some .process ∧ x ∉ s.finishing ∧
    ∀ th ∈ s.threads, th.object? = some x → th = .proceeding x
  stray : s.stray = []

/-- The services that were armed are armed, under way, or in `dropped`. -/
def Balance (s : RpcServer) (dropped : List RpcService) : Prop :=
  ∀ kind, s.armed kind + s.unprocessed kind + dropped.countP (fun x => x.kind = kind) =
    s.called kind

variable {lost dropped : List RpcService} {th th' : Worker} {threads rest : List Worker}

theorem Inv.perm (H : Inv s lost) (h : s.threads.Perm threads) :
    Inv { s with threads := threads } lost where
  place x := by
    have hp := H.place x
    unfold held at hp ⊢
    rwa [← h.countP_eq]
  fresh := H.fresh
  requested := H.requested
  finishing := H.finishing
  sound th ht := H.sound th (h.mem_iff.mpr ht)
  once := H.once
  processed := H.processed
  finished x hx := by
    obtain ⟨h₁, h₂, h₃⟩ := H.finished x hx
    exact ⟨h₁, h₂, fun th ht => h₃ th (h.mem_iff.mpr ht)⟩
  stray := H.stray

theorem Balance.perm (H : Balance s dropped) (h : s.threads.Perm threads) :
    Balance { s with threads := threads } dropped := by
  intro kind
  have hb := H kind
  unfold unprocessed called at hb ⊢
  rw [← h.countP_eq, ← h.countP_eq]
  exact hb

theorem mem_of_lookup {o : CallStatus} (h : s.objects.lookup x = some o) : x ∈ s.objects :=
  AList.lookup_isSome.mp (by rw [h]; rfl)

theorem held_cons (ht : s.threads = th :: rest) (x : RpcService) :
    s.held x = rest.countP (fun th => th.object? = some x) + if th.object? = some x then 1 else 0 := by
  rw [held, ht, List.countP_cons]
  simp

/-- What a thread works on exists, lies nowhere else, and no other thread works on it. -/
theorem Inv.only (H : Inv s lost) (ht : s.threads = th :: rest) (hx : th.object? = some x) :
    x ∈ s.objects ∧ x ∉ s.requested ∧ x ∉ s.finishing ∧ ∀ th ∈ rest, th.object? ≠ some x := by
  have hp := H.place x
  rw [held_cons ht, if_pos hx] at hp
  split_ifs at hp with hmem
  · refine ⟨hmem, ?_, ?_, ?_⟩
    · rw [← List.count_eq_zero]
      omega
    · rw [← List.count_eq_zero]
      omega
    · have hzero : rest.countP (fun th => th.object? = some x) = 0 := by omega
      simpa using hzero
  · omega

theorem Inv.mem_of_object (H : Inv s lost) (ht : th ∈ s.threads) (hx : th.object? = some x) :
    x ∈ s.objects := by
  have hp := H.place x
  have hpos : 0 < s.held x := List.countP_pos_iff.mpr ⟨th, ht, by simpa using hx⟩
  split_ifs at hp with hmem
  · exact hmem
  · omega

theorem Inv.touch (H : Inv s lost) (ht : th ∈ s.threads) (hx : th.object? = some x) :
    s.touch x = s := if_pos (H.mem_of_object ht hx)

theorem sound_congr (h : ∀ y, th.object? = some y → s'.objects.lookup y = s.objects.lookup y)
    (hs : Sound s.objects th) : Sound s'.objects th := by
  cases th with
  | processing x todo =>
      obtain ⟨hsuf, hstatus⟩ := hs
      refine ⟨hsuf, fun hne => ?_⟩
      obtain ⟨a, todo, rfl⟩ := List.exists_cons_of_ne_nil hne
      rw [h x rfl, hstatus hne]
  | handling | waiting | proceeding => exact hs

theorem unserved_congr (h : ∀ y, th.object? = some y → s'.objects.lookup y = s.objects.lookup y) :
    unserved s'.objects kind th = unserved s.objects kind th := by
  cases th with
  | proceeding x => simp only [unserved, h x rfl]
  | handling | waiting | processing => rfl

/-! ## What the threads do -/

/-- A thread goes on with the same object, or with none as before. -/
theorem Inv.swap (H : Inv s lost) (ht : s.threads = th :: rest) (hobj : th'.object? = th.object?)
    (hs : Sound s.objects th') (hfin : ∀ x ∈ s.finished, th.object? ≠ some x) :
    Inv { s with threads := th' :: rest } lost where
  place x := by
    have hp := H.place x
    rw [held_cons ht] at hp
    rw [held_cons rfl, hobj]
    exact hp
  fresh := H.fresh
  requested := H.requested
  finishing := H.finishing
  sound th₀ h₀ := by
    rcases List.mem_cons.mp h₀ with rfl | h₀
    · exact hs
    · exact H.sound th₀ (by rw [ht]; exact List.mem_cons_of_mem _ h₀)
  once := H.once
  processed := H.processed
  finished x hx := by
    obtain ⟨h₁, h₂, h₃⟩ := H.finished x hx
    refine ⟨h₁, h₂, fun th₀ h₀ hx₀ => ?_⟩
    rcases List.mem_cons.mp h₀ with rfl | h₀
    · exact absurd (hobj ▸ hx₀) (hfin x hx)
    · exact h₃ th₀ (by rw [ht]; exact List.mem_cons_of_mem _ h₀) hx₀
  stray := H.stray

theorem Inv.create (H : Inv s lost) (kind : ServiceKind) : Inv (s.create kind) lost := by
  set new : RpcService := ⟨kind, s.count⟩ with hnew
  have habsent : new ∉ s.objects := fun h => absurd (H.fresh new (Or.inl h)) (lt_irrefl _)
  have hold : ∀ y, y ∈ s.objects → (s.create kind).objects.lookup y = s.objects.lookup y := by
    intro y hy
    exact AList.lookup_insert_ne (by rintro rfl; exact habsent hy)
  have hnot : ∀ y, s.objects.lookup y ≠ some .process → y.num < s.count →
      (s.create kind).objects.lookup y ≠ some .process := by
    intro y hy hlt
    rw [RpcServer.create, AList.lookup_insert_ne (by rintro rfl; exact lt_irrefl _ hlt)]
    exact hy
  refine ⟨?_, ?_, ?_, ?_, ?_, H.once, ?_, ?_, H.stray⟩
  · intro x
    have hp := H.place x
    simp only [RpcServer.create, AList.mem_insert, List.count_cons, held, ← hnew] at hp ⊢
    by_cases hx : x = new
    · subst hx
      rw [if_neg habsent] at hp
      simp only [BEq.rfl, if_true, true_or]
      omega
    · rw [if_neg (by simpa using Ne.symm hx)]
      simp only [hx, false_or]
      exact hp
  · intro x hx
    have hlt : x = new ∨ x.num < s.count := by
      rcases hx with hx | hx | hx
      · rcases (AList.mem_insert _).mp hx with rfl | hx
        · exact Or.inl rfl
        · exact Or.inr (H.fresh x (Or.inl hx))
      · exact Or.inr (H.fresh x (Or.inr (Or.inl hx)))
      · exact Or.inr (H.fresh x (Or.inr (Or.inr hx)))
    rcases hlt with rfl | hlt
    · exact Nat.lt_succ_self _
    · exact hlt.trans (Nat.lt_succ_self _)
  · intro x hx
    rcases List.mem_cons.mp hx with rfl | hx
    · exact AList.lookup_insert _
    · rw [hold x (mem_of_lookup (H.requested x hx))]
      exact H.requested x hx
  · intro x hx
    rw [hold x (mem_of_lookup (H.finishing x hx))]
    exact H.finishing x hx
  · intro th ht
    exact sound_congr (fun y hy => hold y (H.mem_of_object ht hy)) (H.sound th ht)
  · intro x hx
    exact hnot x (H.processed x hx) (H.fresh x (Or.inr (Or.inl hx)))
  · intro x hx
    obtain ⟨h₁, h₂, h₃⟩ := H.finished x hx
    exact ⟨hnot x h₁ (H.fresh x (Or.inr (Or.inr hx))), h₂, h₃⟩

/-- The others see nothing of an object they do not work on. -/
theorem Inv.lookup_other (H : Inv s lost) (ht : s.threads = th :: rest) (hx : th.object? = some x)
    (objects : AList (fun _ : RpcService => CallStatus))
    (ho : ∀ y, y ≠ x → objects.lookup y = s.objects.lookup y) :
    (∀ y ∈ s.requested, objects.lookup y = s.objects.lookup y) ∧
      (∀ y ∈ s.finishing, objects.lookup y = s.objects.lookup y) ∧
      ∀ th ∈ rest, ∀ y, th.object? = some y → objects.lookup y = s.objects.lookup y := by
  obtain ⟨-, hreq, hfin, hrest⟩ := H.only ht hx
  refine ⟨?_, ?_, ?_⟩
  · intro y hy
    exact ho y (by rintro rfl; exact hreq hy)
  · intro y hy
    exact ho y (by rintro rfl; exact hfin hy)
  · intro th₀ h₀ y hy
    exact ho y (by rintro rfl; exact hrest th₀ h₀ hy)

theorem Inv.serve (H : Inv s lost) (ht : s.threads = .proceeding x :: rest)
    (hx : s.objects.lookup x = some .process) :
    Inv { s with
      objects := s.objects.insert x .finish
      processed := x :: s.processed
      threads := .processing x x.process :: rest } lost := by
  have ho : ∀ y, y ≠ x → (s.objects.insert x .finish).lookup y = s.objects.lookup y :=
    fun y hy => AList.lookup_insert_ne hy
  obtain ⟨hreq, hfin, hrest⟩ := H.lookup_other ht rfl _ ho
  have hmem : ∀ y, y ∈ s.objects.insert x .finish ↔ y ∈ s.objects := by
    intro y
    rw [AList.mem_insert]
    exact or_iff_right_of_imp (by rintro rfl; exact mem_of_lookup hx)
  have hnot : ∀ y, s.objects.lookup y ≠ some .process →
      (s.objects.insert x .finish).lookup y ≠ some .process := by
    intro y hy
    rw [ho y (by rintro rfl; exact hy hx)]
    exact hy
  refine ⟨?_, ?_, ?_, ?_, ?_, ?_, ?_, ?_, H.stray⟩
  · intro y
    have hp := H.place y
    rw [held_cons ht] at hp
    rw [held_cons rfl, RpcService.process_eq]
    simp only [hmem]
    exact hp
  · rintro y (hy | hy | hy)
    · exact H.fresh y (Or.inl ((hmem y).mp hy))
    · rcases List.mem_cons.mp hy with rfl | hy
      · exact H.fresh y (Or.inl (mem_of_lookup hx))
      · exact H.fresh y (Or.inr (Or.inl hy))
    · exact H.fresh y (Or.inr (Or.inr hy))
  · intro y hy
    rw [hreq y hy]
    exact H.requested y hy
  · intro y hy
    rw [hfin y hy]
    exact H.finishing y hy
  · intro th₀ h₀
    rcases List.mem_cons.mp h₀ with rfl | h₀
    · exact ⟨List.suffix_refl _, fun _ => AList.lookup_insert _⟩
    · exact sound_congr (s := s) (hrest th₀ h₀)
        (H.sound th₀ (by rw [ht]; exact List.mem_cons_of_mem _ h₀))
  · exact List.nodup_cons.mpr ⟨fun hx' => H.processed x hx' hx, H.once⟩
  · intro y hy
    rcases List.mem_cons.mp hy with rfl | hy
    · rw [AList.lookup_insert]
      simp
    · exact hnot y (H.processed y hy)
  · intro y hy
    obtain ⟨h₁, h₂, h₃⟩ := H.finished y hy
    refine ⟨hnot y h₁, h₂, fun th₀ h₀ hy₀ => ?_⟩
    rcases List.mem_cons.mp h₀ with rfl | h₀
    · rw [RpcService.process_eq] at hy₀
      obtain rfl : x = y := Option.some.inj hy₀
      exact absurd hx h₁
    · exact h₃ th₀ (by rw [ht]; exact List.mem_cons_of_mem _ h₀) hy₀

theorem Inv.delete (H : Inv s lost) (ht : s.threads = .proceeding x :: rest) :
    Inv { s with objects := s.objects.erase x, threads := .waiting :: rest } lost := by
  have ho : ∀ y, y ≠ x → (s.objects.erase x).lookup y = s.objects.lookup y :=
    fun y hy => AList.lookup_erase_ne hy
  obtain ⟨hreq, hfin, hrest⟩ := H.lookup_other ht rfl _ ho
  obtain ⟨hxmem, -, -, -⟩ := H.only ht rfl
  have hnot : ∀ y, s.objects.lookup y ≠ some .process →
      (s.objects.erase x).lookup y ≠ some .process := by
    intro y hy
    by_cases hyx : y = x
    · subst hyx
      rw [AList.lookup_erase]
      simp
    · rw [ho y hyx]
      exact hy
  refine ⟨?_, ?_, ?_, ?_, ?_, H.once, ?_, ?_, H.stray⟩
  · intro y
    have hp := H.place y
    rw [held_cons ht] at hp
    have hobj : (Worker.proceeding x).object? = some y ↔ x = y := Option.some_inj
    rw [held_cons rfl, if_neg (by rintro ⟨⟩)]
    dsimp only
    by_cases hyx : y = x
    · subst hyx
      rw [if_pos (hobj.mpr rfl), if_pos hxmem] at hp
      rw [if_neg (by simp [AList.mem_erase])]
      omega
    · rw [if_neg (fun h => hyx (hobj.mp h).symm)] at hp
      simp only [AList.mem_erase, ne_eq, hyx, not_false_eq_true, true_and]
      exact hp
  · rintro y (hy | hy)
    · exact H.fresh y (Or.inl ((AList.mem_erase.mp hy).2))
    · exact H.fresh y (Or.inr hy)
  · intro y hy
    rw [hreq y hy]
    exact H.requested y hy
  · intro y hy
    rw [hfin y hy]
    exact H.finishing y hy
  · intro th₀ h₀
    rcases List.mem_cons.mp h₀ with rfl | h₀
    · trivial
    · exact sound_congr (s := s) (hrest th₀ h₀)
        (H.sound th₀ (by rw [ht]; exact List.mem_cons_of_mem _ h₀))
  · intro y hy
    exact hnot y (H.processed y hy)
  · intro y hy
    obtain ⟨h₁, h₂, h₃⟩ := H.finished y hy
    refine ⟨hnot y h₁, h₂, fun th₀ h₀ hy₀ => ?_⟩
    rcases List.mem_cons.mp h₀ with rfl | h₀
    · cases hy₀
    · exact h₃ th₀ (by rw [ht]; exact List.mem_cons_of_mem _ h₀) hy₀

theorem Inv.answer (H : Inv s lost) {a : ServiceAction}
    (ht : s.threads = .processing x [a] :: rest) :
    Inv { s with
      finishing := x :: s.finishing
      threads := .processing x [] :: rest } lost := by
  have hsound := H.sound (.processing x [a]) (by rw [ht]; exact List.mem_cons_self)
  refine ⟨?_, H.fresh, H.requested, ?_, ?_, H.once, H.processed, ?_, H.stray⟩
  · intro y
    have hp := H.place y
    rw [held_cons ht] at hp
    have hobj : (Worker.processing x [a]).object? = some y ↔ x = y := Option.some_inj
    rw [held_cons rfl, if_neg (by rintro ⟨⟩)]
    dsimp only
    simp only [List.count_cons, hobj, beq_iff_eq] at hp ⊢
    omega
  · intro y hy
    rcases List.mem_cons.mp hy with rfl | hy
    · exact hsound.2 (by simp)
    · exact H.finishing y hy
  · intro th₀ h₀
    rcases List.mem_cons.mp h₀ with rfl | h₀
    · exact ⟨List.nil_suffix, fun hne => absurd rfl hne⟩
    · exact H.sound th₀ (by rw [ht]; exact List.mem_cons_of_mem _ h₀)
  · intro y hy
    obtain ⟨h₁, h₂, h₃⟩ := H.finished y hy
    refine ⟨h₁, ?_, fun th₀ h₀ hy₀ => ?_⟩
    · intro hmem
      rcases List.mem_cons.mp hmem with rfl | hmem
      · cases h₃ (.processing y [a]) (by rw [ht]; exact List.mem_cons_self) rfl
      · exact h₂ hmem
    · rcases List.mem_cons.mp h₀ with rfl | h₀
      · cases hy₀
      · exact h₃ th₀ (by rw [ht]; exact List.mem_cons_of_mem _ h₀) hy₀

/-- A tag that `Next` hands back is worked on from then on, or lost. -/
theorem count_took {tags : List RpcService} (hx : x ∈ tags) (ok : Bool) (y : RpcService) :
    (tags.erase x).count y + (if (Worker.took x ok).object? = some y then 1 else 0) +
      (if ok then [] else [x]).count y = tags.count y := by
  have hcount : (tags.erase x).count y = _ := List.count_erase
  have hpos : 0 < tags.count x := List.count_pos_iff.mpr hx
  by_cases hxy : x = y
  · subst hxy
    cases ok <;> simp [Worker.took, Worker.object?] <;> omega
  · rw [if_neg (by simpa using hxy), Nat.sub_zero] at hcount
    cases ok <;> simp [Worker.took, Worker.object?, hxy, hcount]

theorem Inv.takeRequest (H : Inv s lost) (ht : s.threads = .waiting :: rest)
    (hx : x ∈ s.requested) (ok : Bool) :
    Inv { s with requested := s.requested.erase x, threads := Worker.took x ok :: rest }
      (lost ++ if ok then [] else [x]) := by
  have hstatus := H.requested x hx
  refine ⟨?_, H.fresh, ?_, H.finishing, ?_, H.once, H.processed, ?_, H.stray⟩
  · intro y
    have hp := H.place y
    rw [held_cons ht, if_neg (by rintro ⟨⟩)] at hp
    have hcount := count_took hx ok y
    rw [held_cons rfl, List.count_append]
    dsimp only
    omega
  · intro y hy
    exact H.requested y (List.mem_of_mem_erase hy)
  · intro th₀ h₀
    rcases List.mem_cons.mp h₀ with rfl | h₀
    · cases ok <;> trivial
    · exact H.sound th₀ (by rw [ht]; exact List.mem_cons_of_mem _ h₀)
  · intro y hy
    obtain ⟨h₁, h₂, h₃⟩ := H.finished y hy
    refine ⟨h₁, h₂, fun th₀ h₀ hy₀ => ?_⟩
    rcases List.mem_cons.mp h₀ with rfl | h₀
    · cases ok with
      | true =>
          obtain rfl : x = y := Option.some.inj hy₀
          exact absurd hstatus h₁
      | false => cases hy₀
    · exact h₃ th₀ (by rw [ht]; exact List.mem_cons_of_mem _ h₀) hy₀

theorem Inv.takeFinish (H : Inv s lost) (ht : s.threads = .waiting :: rest)
    (hx : x ∈ s.finishing) (ok : Bool) :
    Inv { s with
      finishing := s.finishing.erase x
      finished := x :: s.finished
      threads := Worker.took x ok :: rest } (lost ++ if ok then [] else [x]) := by
  have hstatus := H.finishing x hx
  have hone : s.finishing.count x = 1 ∧ s.held x = 0 := by
    have hp := H.place x
    rw [if_pos (mem_of_lookup hstatus)] at hp
    have hpos : 0 < s.finishing.count x := List.count_pos_iff.mpr hx
    omega
  refine ⟨?_, ?_, H.requested, ?_, ?_, H.once, H.processed, ?_, H.stray⟩
  · intro y
    have hp := H.place y
    rw [held_cons ht, if_neg (by rintro ⟨⟩)] at hp
    have hcount := count_took hx ok y
    rw [held_cons rfl, List.count_append]
    dsimp only
    omega
  · rintro y (hy | hy | hy)
    · exact H.fresh y (Or.inl hy)
    · exact H.fresh y (Or.inr (Or.inl hy))
    · rcases List.mem_cons.mp hy with rfl | hy
      · exact H.fresh y (Or.inl (mem_of_lookup hstatus))
      · exact H.fresh y (Or.inr (Or.inr hy))
  · intro y hy
    exact H.finishing y (List.mem_of_mem_erase hy)
  · intro th₀ h₀
    rcases List.mem_cons.mp h₀ with rfl | h₀
    · cases ok <;> trivial
    · exact H.sound th₀ (by rw [ht]; exact List.mem_cons_of_mem _ h₀)
  · intro y hy
    have hrest : ∀ th₀ ∈ rest, th₀.object? = some y → th₀ = .proceeding y := by
      intro th₀ h₀ hy₀
      rcases List.mem_cons.mp hy with rfl | hy
      · have hzero := hone.2
        rw [held, List.countP_eq_zero] at hzero
        exact absurd hy₀ (by simpa using hzero th₀ (by rw [ht]; exact List.mem_cons_of_mem _ h₀))
      · exact (H.finished y hy).2.2 th₀ (by rw [ht]; exact List.mem_cons_of_mem _ h₀) hy₀
    have hhead : (Worker.took x ok).object? = some y → Worker.took x ok = .proceeding y := by
      intro hy₀
      cases ok with
      | true =>
          obtain rfl : x = y := Option.some.inj hy₀
          rfl
      | false => cases hy₀
    refine ⟨?_, ?_, ?_⟩
    · rcases List.mem_cons.mp hy with rfl | hy
      · rw [hstatus]
        simp
      · exact (H.finished y hy).1
    · intro hmem
      rcases List.mem_cons.mp hy with rfl | hy
      · have hcount := List.count_pos_iff.mpr hmem
        rw [List.count_erase_self] at hcount
        omega
      · exact (H.finished y hy).2.1 (List.mem_of_mem_erase hmem)
    · intro th₀ h₀ hy₀
      rcases List.mem_cons.mp h₀ with rfl | h₀
      · exact hhead hy₀
      · exact hrest th₀ h₀ hy₀

/-! ## One step -/

/-- The number of armed services after a thread went from `th` to `th'`. -/
theorem Balance.thread {dropped' : List RpcService} (B : Balance s dropped)
    (ht : s.threads = th :: rest) (ht' : s'.threads = th' :: rest)
    (ho : ∀ th₀ ∈ rest, ∀ y, th₀.object? = some y → s'.objects.lookup y = s.objects.lookup y)
    (hcount : ∀ kind,
      s'.armed kind + (if unserved s'.objects kind th' then 1 else 0) +
        dropped'.countP (fun x => x.kind = kind) + (if handled kind th then 1 else 0) =
      s.armed kind + (if unserved s.objects kind th then 1 else 0) +
        dropped.countP (fun x => x.kind = kind) + (if handled kind th' then 1 else 0)) :
    Balance s' dropped' := by
  intro kind
  have hb := B kind
  have hc := hcount kind
  have hrest : rest.countP (unserved s'.objects kind) = rest.countP (unserved s.objects kind) := by
    apply List.countP_congr
    intro th₀ h₀
    rw [unserved_congr (s := s) (ho th₀ h₀)]
  unfold unprocessed called at hb ⊢
  rw [ht, List.countP_cons, List.countP_cons] at hb
  rw [ht', List.countP_cons, List.countP_cons, hrest]
  omega

theorem armed_create (s : RpcServer) (kind kind' : ServiceKind) :
    (s.create kind).armed kind' = s.armed kind' + if kind = kind' then 1 else 0 := by
  simp [armed, create, List.countP_cons]

theorem Inv.lookup_new (H : Inv s lost) (ht : th ∈ s.threads) (hx : th.object? = some x)
    (kind : ServiceKind) : (s.create kind).objects.lookup x = s.objects.lookup x := by
  have hlt := H.fresh x (Or.inl (H.mem_of_object ht hx))
  apply AList.lookup_insert_ne
  intro h
  rw [h] at hlt
  exact lt_irrefl _ hlt

theorem Inv.lookup_create (H : Inv s lost) (ht : s.threads = th :: rest) (kind : ServiceKind) :
    ∀ th₀ ∈ rest, ∀ y, th₀.object? = some y →
      (s.create kind).objects.lookup y = s.objects.lookup y := by
  intro th₀ h₀ y hy
  exact H.lookup_new (by rw [ht]; exact List.mem_cons_of_mem _ h₀) hy kind

theorem Inv.handle {todo : List ServiceKind} (H : Inv s lost) (B : Balance s dropped)
    (ht : s.threads = .handling (kind :: todo) :: rest) (hnodup : (kind :: todo).Nodup) :
    Inv { s.create kind with threads := .handling todo :: rest } lost ∧
      Balance { s.create kind with threads := .handling todo :: rest } dropped := by
  constructor
  · exact (H.create kind).swap ht rfl hnodup.of_cons (by rintro x - ⟨⟩)
  · refine B.thread ht rfl (H.lookup_create ht kind) fun kind' => ?_
    have ha : ({ s.create kind with threads := .handling todo :: rest } : RpcServer).armed kind' = _ :=
      armed_create s kind kind'
    rw [ha]
    simp only [unserved, handled, List.mem_cons, not_or, decide_eq_true_eq]
    by_cases hk : kind = kind'
    · subst hk
      simp [(List.nodup_cons.mp hnodup).1]
      omega
    · simp [hk, Ne.symm hk]

theorem Inv.proceed (H : Inv s lost) (B : Balance s dropped)
    (ht : s.threads = .proceeding x :: rest) (h : s.proceed x = (s', th')) :
    Inv { s' with threads := th' :: rest } lost ∧
      Balance { s' with threads := th' :: rest } dropped := by
  have hmem : Worker.proceeding x ∈ s.threads := by rw [ht]; exact List.mem_cons_self
  unfold RpcServer.proceed at h
  split at h
  · next hx =>
      obtain ⟨rfl, rfl⟩ := Prod.mk.inj h
      obtain ⟨-, -, hrest⟩ := H.lookup_other ht rfl (s.objects.insert x .finish)
        (fun y hy => AList.lookup_insert_ne hy)
      refine ⟨H.serve ht hx, B.thread ht rfl hrest fun kind => ?_⟩
      simp [unserved, handled, armed, hx, RpcService.process_eq, processAs, eq_comm]
  · next hx =>
      obtain ⟨rfl, rfl⟩ := Prod.mk.inj h
      obtain ⟨-, -, hrest⟩ := H.lookup_other ht rfl (s.objects.erase x)
        (fun y hy => AList.lookup_erase_ne hy)
      refine ⟨H.delete ht, B.thread ht rfl hrest fun kind => ?_⟩
      simp [unserved, handled, armed, hx]
  · next hx =>
      have hlive := H.mem_of_object hmem rfl
      rw [← AList.lookup_isSome, hx] at hlive
      cases hlive

/-- The three actions of `process`, in their order. -/
theorem suffix_process {a : ServiceAction} {todo : List ServiceAction}
    (h : a :: todo <:+ x.process) :
    a = .create x.kind ∧ todo = [.call x.kind, .finish] ∨
      a = .call x.kind ∧ todo = [.finish] ∨ a = .finish ∧ todo = [] := by
  simpa [RpcService.process_eq, processAs, List.suffix_cons_iff] using h

theorem Inv.perform {a : ServiceAction} {todo : List ServiceAction} (H : Inv s lost)
    (B : Balance s dropped) (ht : s.threads = .processing x (a :: todo) :: rest) :
    Inv { s.perform x a with threads := .processing x todo :: rest } lost ∧
      Balance { s.perform x a with threads := .processing x todo :: rest } dropped := by
  have hmem : Worker.processing x (a :: todo) ∈ s.threads := by rw [ht]; exact List.mem_cons_self
  have htouch : s.touch x = s := H.touch hmem rfl
  obtain ⟨hsuf, hstatus⟩ := H.sound _ hmem
  have htail : todo <:+ x.process := (List.suffix_cons a todo).trans hsuf
  have hfin : ∀ y ∈ s.finished, (Worker.processing x (a :: todo)).object? ≠ some y := by
    intro y hy hobj
    cases (H.finished y hy).2.2 _ hmem hobj
  rcases suffix_process hsuf with ⟨rfl, rfl⟩ | ⟨rfl, rfl⟩ | ⟨rfl, rfl⟩
  · simp only [RpcServer.perform, htouch]
    constructor
    · refine (H.create x.kind).swap ht rfl ⟨htail, fun _ => ?_⟩ hfin
      exact (H.lookup_new hmem rfl x.kind).trans (hstatus (by simp))
    · refine B.thread ht rfl (H.lookup_create ht x.kind) fun kind => ?_
      have ha : ({ s.create x.kind with
        threads := .processing x [.call x.kind, .finish] :: rest } : RpcServer).armed kind = _ :=
        armed_create s x.kind kind
      rw [ha]
      simp [unserved, handled, eq_comm]
  · simp only [RpcServer.perform, htouch]
    refine ⟨H.swap ht rfl ⟨htail, fun _ => hstatus (by simp)⟩ hfin, ?_⟩
    exact B.thread ht rfl (fun _ _ _ _ => rfl) (fun kind => by simp [unserved, handled, armed])
  · simp only [RpcServer.perform, htouch]
    refine ⟨H.answer ht, ?_⟩
    exact B.thread ht rfl (fun _ _ _ _ => rfl) (fun kind => by simp [unserved, handled, armed])

theorem Inv.advance (H : Inv s lost) (B : Balance s dropped) (ht : s.threads = th :: rest)
    (h : s.advance th = some (s', th')) :
    Inv { s' with threads := th' :: rest } lost ∧
      Balance { s' with threads := th' :: rest } dropped := by
  have hsound := H.sound th (by rw [ht]; exact List.mem_cons_self)
  cases th with
  | waiting => cases h
  | handling todo =>
      cases todo with
      | nil =>
          obtain ⟨rfl, rfl⟩ : s = s' ∧ Worker.waiting = th' := by simpa [RpcServer.advance] using h
          exact ⟨H.swap ht rfl trivial (by rintro x - ⟨⟩),
            B.thread ht rfl (fun _ _ _ _ => rfl) (fun kind => by simp [unserved, handled, armed])⟩
      | cons kind todo =>
          obtain ⟨rfl, rfl⟩ : s.create kind = s' ∧ Worker.handling todo = th' := by
            simpa [RpcServer.advance] using h
          exact H.handle B ht hsound
  | proceeding x =>
      simp only [RpcServer.advance, Option.some.injEq] at h
      exact H.proceed B ht h
  | processing x todo =>
      cases todo with
      | nil =>
          obtain ⟨rfl, rfl⟩ : s = s' ∧ Worker.waiting = th' := by simpa [RpcServer.advance] using h
          exact ⟨H.swap ht rfl trivial (by rintro x - ⟨⟩),
            B.thread ht rfl (fun _ _ _ _ => rfl) (fun kind => by simp [unserved, handled, armed])⟩
      | cons a todo =>
          obtain ⟨rfl, rfl⟩ : s.perform x a = s' ∧ Worker.processing x todo = th' := by
            simpa [RpcServer.advance] using h
          exact H.perform B ht

theorem advance_threads (s : RpcServer) (threads : List Worker) (th : Worker) :
    ({ s with threads := threads } : RpcServer).advance th =
      (s.advance th).map (fun r => ({ r.1 with threads := threads }, r.2)) := by
  cases th with
  | waiting => rfl
  | handling todo => cases todo <;> rfl
  | proceeding x =>
      simp only [RpcServer.advance, proceed]
      split <;> rfl
  | processing x todo =>
      cases todo with
      | nil => rfl
      | cons a todo =>
          simp only [RpcServer.advance, Option.map_some]
          cases a <;> simp only [perform, touch] <;> split_ifs <;> rfl

end RpcServer

/-- The object that a step without `ok` takes for good. -/
def RpcEvent.lost : RpcEvent → List RpcService
  | .advance _ => []
  | .request _ x ok => if ok then [] else [x]
  | .finish _ x ok => if ok then [] else [x]

/-- The registration that comes back without `ok`. -/
def RpcEvent.dropped : RpcEvent → List RpcService
  | .request _ x ok => if ok then [] else [x]
  | _ => []

namespace RpcServer

variable {s s' : RpcServer} {lost dropped : List RpcService} {e : RpcEvent} {es : List RpcEvent}

theorem Inv.step (H : Inv s lost) (B : Balance s dropped) (h : s.step e = some s') :
    Inv s' (lost ++ e.lost) ∧ Balance s' (dropped ++ e.dropped) := by
  -- the thread that takes the step is put first
  have hfirst : ∀ {t th}, s.threads[t]? = some th → ∃ rest,
      s.threads.Perm (th :: rest) ∧ ∀ th', (th' :: rest).Perm (s.threads.set t th') := by
    intro t th ht
    obtain ⟨hlt, rfl⟩ := List.getElem?_eq_some_iff.mp ht
    exact ⟨s.threads.eraseIdx t, (List.getElem_cons_eraseIdx_perm hlt).symm,
      fun th' => (List.set_perm_cons_eraseIdx hlt th').symm⟩
  cases e with
  | advance t =>
      rw [RpcServer.step] at h
      cases ht : s.threads[t]? with
      | none => simp [ht] at h
      | some th =>
          cases ha : s.advance th with
          | none => simp [ht, ha] at h
          | some r =>
              obtain ⟨s₁, th'⟩ := r
              obtain ⟨rest, hperm, hset⟩ := hfirst ht
              have hthreads : s₁.threads = s.threads := by
                have hs := s.advance_threads s.threads th
                rw [ha, Option.map_some, Option.some.injEq, Prod.mk.injEq] at hs
                have hsame := congrArg RpcServer.threads hs.1
                exact hsame
              have ha' := s.advance_threads (th :: rest) th
              rw [ha, Option.map_some] at ha'
              obtain ⟨H', B'⟩ := (H.perm hperm).advance (B.perm hperm) rfl ha'
              simp only [ht, ha, Option.some.injEq] at h
              subst h
              rw [hthreads]
              simp only [RpcEvent.lost, RpcEvent.dropped, List.append_nil]
              exact ⟨H'.perm (hset th'), B'.perm (hset th')⟩
  | request t x ok =>
      simp only [RpcServer.step, Option.ite_none_right_eq_some, Option.some.injEq] at h
      obtain ⟨⟨ht, hx⟩, rfl⟩ := h
      obtain ⟨rest, hperm, hset⟩ := hfirst ht
      refine ⟨((H.perm hperm).takeRequest rfl hx ok).perm (hset _), ?_⟩
      refine Balance.perm (s := { s with
        requested := s.requested.erase x, threads := Worker.took x ok :: rest }) ?_ (hset _)
      refine (B.perm hperm).thread rfl rfl (fun _ _ _ _ => rfl) fun kind => ?_
      have hcount : s.requested.countP (fun x => x.kind = kind) =
          (s.requested.erase x).countP (fun x => x.kind = kind) + if x.kind = kind then 1 else 0 := by
        rw [(List.perm_cons_erase hx).countP_eq, List.countP_cons]
        simp
      have hstatus := H.requested x hx
      simp only [armed, RpcEvent.dropped, List.countP_append] at hcount ⊢
      cases ok <;> simp [Worker.took, unserved, handled, hstatus] <;> omega
  | finish t x ok =>
      simp only [RpcServer.step, Option.ite_none_right_eq_some, Option.some.injEq] at h
      obtain ⟨⟨ht, hx⟩, rfl⟩ := h
      obtain ⟨rest, hperm, hset⟩ := hfirst ht
      refine ⟨((H.perm hperm).takeFinish rfl hx ok).perm (hset _), ?_⟩
      refine Balance.perm (s := { s with
        finishing := s.finishing.erase x, finished := x :: s.finished,
        threads := Worker.took x ok :: rest }) ?_ (hset _)
      refine (B.perm hperm).thread rfl rfl (fun _ _ _ _ => rfl) fun kind => ?_
      have hstatus := H.finishing x hx
      cases ok <;> simp [Worker.took, unserved, handled, armed, RpcEvent.dropped, hstatus]

/-! ## Runs -/

theorem Inv.run (H : Inv s lost) (B : Balance s dropped) (h : s.run es = some s') :
    Inv s' (lost ++ es.flatMap RpcEvent.lost) ∧
      Balance s' (dropped ++ es.flatMap RpcEvent.dropped) := by
  induction es generalizing s lost dropped with
  | nil =>
      obtain rfl : s = s' := Option.some.inj h
      simpa using ⟨H, B⟩
  | cons e es ih =>
      rw [RpcServer.run] at h
      cases hs : s.step e with
      | none => simp [hs] at h
      | some s₁ =>
          rw [hs] at h
          obtain ⟨H₁, B₁⟩ := H.step B hs
          have hrun := ih H₁ B₁ h
          rwa [List.append_assoc, List.append_assoc] at hrun

theorem Inv.start (threadNumber : ℕ) : Inv (start threadNumber) [] where
  place x := by
    simp [RpcServer.start, held, List.countP_replicate, Worker.object?]
  fresh x h := by simp [RpcServer.start] at h
  requested x h := by simp [RpcServer.start] at h
  finishing x h := by simp [RpcServer.start] at h
  sound th h := by
    obtain rfl := List.eq_of_mem_replicate h
    show BrokerServer.specificHandle.Nodup
    decide
  once := List.nodup_nil
  processed x h := by simp [RpcServer.start] at h
  finished x h := by simp [RpcServer.start] at h
  stray := rfl

theorem Balance.start (threadNumber : ℕ) : Balance (start threadNumber) [] := by
  intro kind
  have hmem : kind ∈ BrokerServer.specificHandle := by cases kind <;> decide
  simp [RpcServer.start, armed, unprocessed, called, List.countP_replicate, unserved, handled, hmem]

/-- What the invariant says where no event was lost. -/
theorem Inv.accounted (H : Inv s []) : Accounted s where
  once := H.once
  untouched := H.stray
  deleted x hx hmem := by
    obtain ⟨hnot, hfin, hthreads⟩ := H.finished x hx
    have hp := H.place x
    rw [if_pos hmem, List.count_nil, List.count_eq_zero.mpr hfin,
      List.count_eq_zero.mpr (fun hr => hnot (H.requested x hr))] at hp
    obtain ⟨th, hth, hobj⟩ := List.countP_pos_iff.mp (show 0 < s.held x by omega)
    have hobj' : th.object? = some x := by simpa using hobj
    exact hthreads th hth hobj' ▸ hth
  live x := by
    have hp := H.place x
    have hheld : (∃ th ∈ s.threads, th.object? = some x) ↔ 0 < s.held x := by
      rw [held, List.countP_pos_iff]
      simp
    rw [hheld, ← List.count_pos_iff, ← List.count_pos_iff]
    rw [List.count_nil] at hp
    split_ifs at hp with hmem <;> simp only [hmem, true_iff, false_iff] <;> omega

/-- An object whose event was lost stays for ever. -/
theorem Inv.not_accounted {x : RpcService} (H : Inv s lost) (hx : x ∈ lost) : ¬ Accounted s := by
  intro A
  have hp := H.place x
  have hpos := List.count_pos_iff.mpr hx
  split_ifs at hp with hmem
  · rcases (A.live x).mp hmem with hr | ⟨th, hth, hobj⟩ | hf
    · have hr' := List.count_pos_iff.mpr hr
      omega
    · have hheld : 0 < s.held x := List.countP_pos_iff.mpr ⟨th, hth, by simpa using hobj⟩
      omega
    · have hf' := List.count_pos_iff.mpr hf
      omega
  · omega

/-- With any number of threads and any order of events, the service objects are accounted for exactly
if every event comes with `ok`, and the services of each class stay armed if every registration does. -/
theorem accounted_iff (threadNumber : ℕ) (h : (start threadNumber).run es = some s) :
    (Accounted s ↔ ∀ e ∈ es, e.ok = true) ∧
      ((∀ t x, .request t x false ∉ es) → Balanced s) := by
  obtain ⟨H, B⟩ := (Inv.start threadNumber).run (Balance.start threadNumber) h
  rw [List.nil_append] at H B
  refine ⟨⟨?_, ?_⟩, ?_⟩
  · intro A e he
    by_contra hok
    have hlost : ∃ x, x ∈ e.lost := by
      cases e with
      | advance => exact absurd rfl hok
      | request t x ok => exact ⟨x, by simpa [RpcEvent.lost, RpcEvent.ok] using hok⟩
      | finish t x ok => exact ⟨x, by simpa [RpcEvent.lost, RpcEvent.ok] using hok⟩
    obtain ⟨x, hx⟩ := hlost
    exact H.not_accounted (List.mem_flatMap.mpr ⟨e, he, hx⟩) A
  · intro hok
    have hlost : es.flatMap RpcEvent.lost = [] := by
      apply List.flatMap_eq_nil_iff.mpr
      intro e he
      have hoke := hok e he
      cases e with
      | advance => rfl
      | request | finish =>
          simp only [RpcEvent.ok] at hoke
          simp [RpcEvent.lost, hoke]
    rw [hlost] at H
    exact H.accounted
  · intro hreq kind
    have hdropped : es.flatMap RpcEvent.dropped = [] := by
      apply List.flatMap_eq_nil_iff.mpr
      intro e he
      cases e with
      | advance | finish => rfl
      | request t x ok =>
          cases ok with
          | true => rfl
          | false => exact absurd he (hreq t x)
    have hb := B kind
    rw [hdropped, List.countP_nil] at hb
    exact hb

/-- One thread arms its services, serves a call and deletes the object when the answer is out. -/
theorem accounted_iff_answered :
    ∃ s, (start 1).run (List.replicate 8 (.advance 0) ++
        .request 0 ⟨.sendMessage, 0⟩ true :: List.replicate 5 (.advance 0) ++
        [.finish 0 ⟨.sendMessage, 0⟩ true, .advance 0]) = some s ∧
      Accounted s ∧ Balanced s := by
  obtain ⟨s, hs⟩ := Option.isSome_iff_exists.mp (show
    ((start 1).run (List.replicate 8 (.advance 0) ++
      .request 0 ⟨.sendMessage, 0⟩ true :: List.replicate 5 (.advance 0) ++
      [.finish 0 ⟨.sendMessage, 0⟩ true, .advance 0])).isSome = true by decide)
  obtain ⟨haccounted, hbalanced⟩ := accounted_iff 1 hs
  refine ⟨s, hs, haccounted.mpr (by decide), hbalanced ?_⟩
  intro t x h
  simp [List.replicate] at h

/-- The answer cannot be sent: its event comes without `ok`, and the object is never deleted. -/
theorem leaked_service :
    ∃ s, (start 1).run (List.replicate 8 (.advance 0) ++
        .request 0 ⟨.sendMessage, 0⟩ true :: List.replicate 5 (.advance 0) ++
        [.finish 0 ⟨.sendMessage, 0⟩ false]) = some s ∧ ¬ Accounted s := by
  obtain ⟨s, hs⟩ := Option.isSome_iff_exists.mp (show
    ((start 1).run (List.replicate 8 (.advance 0) ++
      .request 0 ⟨.sendMessage, 0⟩ true :: List.replicate 5 (.advance 0) ++
      [.finish 0 ⟨.sendMessage, 0⟩ false])).isSome = true by decide)
  obtain ⟨H, -⟩ := (Inv.start 1).run (Balance.start 1) hs
  exact ⟨s, hs, H.not_accounted (x := ⟨.sendMessage, 0⟩) (by decide)⟩

end RpcServer

end MyKafka
