import Tampi.Verify.Abstraction

/-! # Steps of the tasks and of the completion task

`OperationManager::process` from the binding of the events to the return from the block, the
completion queue, and MPI completing requests, as moves of the life of the operations. -/

namespace Tampi
open Function (update)

/-! ## More events -/

section
variable {log log' : List Event} (h : log ⊆ log')
include h

theorem Transfer.FilterInv.mono {x : Transfer} (H : x.FilterInv log c n) : x.FilterInv log' c n where
  __ := H
  status j h1 h2 := h (H.status j h1 h2)

theorem Testing.mono (T : Testing approach ticket t requests indices statuses log) :
    Testing approach ticket t requests indices statuses log' where
  __ := T
  toTestInv := T.toTestInv.mono h

theorem Transfer.PhaseInv.mono {x : Transfer} (H : x.PhaseInv cfg log) : x.PhaseInv cfg log' := by
  unfold PhaseInv at H ⊢
  split at H
  · exact H
  · obtain ⟨h1, h2, h3, h4, T, h5⟩ := H
    exact ⟨h1, h2, h3, h4, T.mono h, h5⟩
  · exact ⟨H.1.mono h, H.2⟩
  all_goals exact H

theorem Transfer.Inv.mono {x : Transfer} (H : x.Inv cfg log w pending capacity) :
    x.Inv cfg log' w pending capacity where
  __ := H
  settled e he := (H.settled e he).mono h
  phase := H.phase.mono h

theorem Check.BatchInv.mono {k : Check} (H : k.BatchInv cfg log pending arrays ps d c) :
    k.BatchInv cfg log' pending arrays ps d c where
  __ := H
  settled p hp := (H.settled p hp).mono h
  status j h1 h2 := h (H.status j h1 h2)

theorem Check.PhaseInv.mono {k : Check} (H : k.PhaseInv cfg log pending arrays) :
    k.PhaseInv cfg log' pending arrays := by
  unfold PhaseInv at H ⊢
  split at H
  · obtain ⟨h1, h2, h3, h4, h5, T⟩ := H
    exact ⟨h1, h2, h3, h4, h5, T.mono h⟩
  · exact ⟨H.1, H.2.mono h⟩
  · exact ⟨H.1, H.2.mono h⟩
  · exact BatchInv.mono h H
  · exact H

theorem PollInv.mono (H : PollInv cfg m consumer log p) : PollInv cfg m consumer log' p := by
  unfold PollInv at H ⊢
  split at H
  all_goals try exact H
  · exact ⟨H.1, H.2.1, H.2.2.1, H.2.2.2.mono h⟩
  · obtain ⟨h1, H⟩ := H
    exact ⟨h1, { H with phase := H.phase.mono h }⟩

end

/-! ## Operation objects -/

namespace ObjAllocator
variable {a a' : ObjAllocator}

theorem sum_caches (hlt : cpu < n) (objects : List Nat) :
    ∑ c ∈ Finset.range n, (update a.caches cpu objects c : Multiset Nat) + a.caches cpu =
      ∑ c ∈ Finset.range n, (a.caches c : Multiset Nat) + objects := by
  have := Counting.sum_of_eq_off (q := cpu) (fun c => (a.caches c : Multiset Nat))
    (fun c => (update a.caches cpu objects c : Multiset Nat)) hlt (fun c h => by simp [h])
  simpa using this

/-- `alloc` takes an unused object. -/
theorem unused_alloc (hlt : cpu < n) (h : a.alloc cpu = some (object, a')) :
    a.unused n = object ::ₘ a'.unused n := by
  unfold alloc at h
  split at h
  · rename_i rest hcache
    cases h
    have hsum := sum_caches (a := a) hlt rest
    rw [hcache, ← Multiset.cons_coe, Multiset.add_cons] at hsum
    simp only [unused]
    rw [← Multiset.add_cons]
    congr 1
    refine add_right_cancel (b := (rest : Multiset Nat)) ?_
    rw [Multiset.cons_add, hsum]
  · rename_i hcache
    split at h
    · cases h
    · rename_i objects htake
      cases h
      have hsum := sum_caches (a := a) hlt objects.reverse
      rw [hcache, Multiset.coe_nil, add_zero] at hsum
      have hsplit : (a.central : Multiset Nat) =
          (object :: objects : List Nat) + (a.central.drop BatchSize : List Nat) := by
        rw [← htake, Multiset.coe_add, List.take_append_drop]
      simp only [unused, hsum, hsplit, ← Multiset.cons_coe, Multiset.coe_reverse]
      rw [Multiset.cons_add, Multiset.cons_add]
      congr 1
      abel

/-- `free` gives objects back, all of them when they fit. -/
theorem unused_free (h : objects.length ≤ capacity - a.central.length) :
    (a.free capacity objects).unused n = a.unused n + objects := by
  simp only [unused, free, List.take_of_length_le h, ← Multiset.coe_add]
  abel

end ObjAllocator

/-! ## Tasks and CPUs -/

section
variable {objects objects' : OpKind → Nat → Op} {tasks : Handle → TaskState}

theorem CpuInv.tasks_of_task (H : CpuInv objects tasks producer c cpu) (h : cpu.task = some t) :
    tasks t = .inProcess c := by
  cases cpu with
  | idle => cases h
  | bound op => cases h; exact H.2.2.2
  | allocated kind object ctx => cases h; exact H.2.task
  | pushing object ctx => cases h; exact H.2.task
  | pushed ctx => cases h; exact H.2

/-- A CPU does not depend on the tasks it does not run. -/
theorem CpuInv.tasks_congr (H : CpuInv objects tasks producer c cpu)
    (h : ∀ t, cpu.task = some t → tasks' t = tasks t) : CpuInv objects tasks' producer c cpu := by
  cases cpu with
  | idle => exact H
  | bound op => exact ⟨H.1, H.2.1, H.2.2.1, (h _ rfl).trans H.2.2.2⟩
  | allocated kind object ctx => exact ⟨H.1, { H.2 with task := (h _ rfl).trans H.2.task }⟩
  | pushing object ctx => exact ⟨H.1, { H.2 with task := (h _ rfl).trans H.2.task }⟩
  | pushed ctx => exact ⟨H.1, (h _ rfl).trans H.2⟩

/-- A CPU depends on no other object than the one it holds. -/
theorem CpuInv.objects_congr (H : CpuInv objects tasks producer c cpu)
    (h : ∀ kind, ∀ o ∈ cpu.held kind, objects' kind o = objects kind o) :
    CpuInv objects' tasks producer c cpu := by
  cases cpu with
  | idle | bound | pushed => exact H
  | allocated kind object ctx =>
    have := h kind object (by simp [Cpu.held])
    exact ⟨H.1, ⟨this ▸ H.2.context, this ▸ H.2.id_cpu, this ▸ H.2.id_kind, H.2.task⟩⟩
  | pushing object ctx =>
    have := h .p2p object (by simp [Cpu.held])
    exact ⟨H.1, ⟨this ▸ H.2.context, this ▸ H.2.id_cpu, this ▸ H.2.id_kind, H.2.task⟩⟩

end

namespace Sys
variable {cfg : Config} {s s' : Sys}

/-- A task other than the one on `cpu` is not in `process` there. -/
theorem Inv.ne_cpu (I : s.Inv cfg) (h : (s.cpus cpu).task = some task ∨ s.cpus cpu = .idle)
    (ht : t ≠ task) (hc : s.tasks t = .inProcess c) : c ≠ cpu := by
  rintro rfl
  have := I.tasks t
  rw [hc] at this
  rcases h with h | h
  · rw [TaskInv, h] at this
    exact ht (Option.some.inj this).symm
  · simp [TaskInv, h, Cpu.task] at this

/-- A step of the task on `cpu` leaves the other tasks where they are. -/
theorem Inv.agents_update (I : s.Inv cfg) (h : (s.cpus cpu).task = some task ∨ s.cpus cpu = .idle)
    (htasks : ∀ t, t ≠ task → s'.tasks t = s.tasks t)
    (hcpus : ∀ c, c ≠ cpu → s'.cpus c = s.cpus c)
    (hobj : ∀ c kind, ∀ o ∈ (s.cpus c).held kind, s'.objects kind o = s.objects kind o)
    (ha : s'.agent task = a) : s'.agent = update s.agent task a := by
  funext t
  by_cases ht : t = task
  · subst ht; simpa using ha
  rw [Function.update_of_ne ht]
  unfold agent
  rw [htasks t ht]
  cases hs : s.tasks t with
  | ready | blocked => rfl
  | inProcess c =>
    dsimp only
    rw [hcpus c (I.ne_cpu h ht hs)]
    cases hc : s.cpus c with
    | idle | bound | pushed => rfl
    | allocated kind o ctx => simp [hobj c kind o (by simp [hc, Cpu.held])]
    | pushing o ctx => simp [hobj c .p2p o (by simp [hc, Cpu.held])]

/-- The tasks and CPUs after a step of the task on `cpu`. -/
theorem Inv.tasks_update (I : s.Inv cfg) (h : (s.cpus cpu).task = some task ∨ s.cpus cpu = .idle)
    (htask : TaskInv (update s.cpus cpu v) task (update s.tasks task ts task)) (t : Handle) :
    TaskInv (update s.cpus cpu v) t (update s.tasks task ts t) := by
  by_cases ht : t = task
  · subst ht; exact htask
  · rw [Function.update_of_ne ht]
    have := I.tasks t
    cases hs : s.tasks t with
    | ready => trivial
    | blocked ctx => simpa [hs, TaskInv] using this
    | inProcess c =>
      rw [hs] at this
      simpa [TaskInv, I.ne_cpu h ht hs] using this

/-- A step of the task on `cpu` that keeps it in `process`. -/
theorem Inv.tasks_keep (I : s.Inv cfg) (task : Handle) (h : (s.cpus cpu).task = some task)
    (hv : v.task = some task) (t : Handle) : TaskInv (update s.cpus cpu v) t (s.tasks t) := by
  have : TaskInv (update s.cpus cpu v) t (update s.tasks task (.inProcess cpu) t) :=
    I.tasks_update (.inl h) (by simp [TaskInv, hv]) t
  rwa [← (I.cpus cpu).tasks_of_task h, Function.update_eq_self] at this

theorem Inv.agents_keep (I : s.Inv cfg) (cpu : Nat) (task : Handle)
    (h : (s.cpus cpu).task = some task) (htasks : s'.tasks = s.tasks)
    (hcpus : ∀ c, c ≠ cpu → s'.cpus c = s.cpus c)
    (hobj : ∀ c kind, ∀ o ∈ (s.cpus c).held kind, s'.objects kind o = s.objects kind o)
    (ha : s'.agent task = s.agent task) : s'.agent = s.agent := by
  rw [I.agents_update (.inl h) (fun t _ => congrFun htasks t) hcpus hobj ha,
    Function.update_eq_self]

theorem Inv.cpu_lt (I : s.Inv cfg) (cpu : Nat) (h : s.cpus cpu ≠ .idle) : cpu < cfg.cpus := by
  by_contra hge
  exact h (I.outside cpu (by omega)).1

theorem sum_held (cpus : Nat → Cpu) (hlt : cpu < n) (kind : OpKind) (v : Cpu) :
    ∑ c ∈ Finset.range n, (update cpus cpu v c).held kind + (cpus cpu).held kind =
      ∑ c ∈ Finset.range n, (cpus c).held kind + v.held kind := by
  have := Counting.sum_of_eq_off (q := cpu) (fun c => (cpus c).held kind)
    (fun c => (update cpus cpu v c).held kind) hlt (fun c h => by simp [h])
  simpa using this

theorem sum_held_eq (cpus : Nat → Cpu) (hlt : cpu < n) (kind : OpKind) (v : Cpu)
    (h : v.held kind = (cpus cpu).held kind) :
    ∑ c ∈ Finset.range n, (update cpus cpu v c).held kind =
      ∑ c ∈ Finset.range n, (cpus c).held kind :=
  add_right_cancel (h ▸ sum_held cpus hlt kind v)

/-! ## `OperationManager::process` -/

theorem process_sim (nature : OpNature) (args : Op) (I : s.Inv cfg) (hc : s.cpus cpu = .idle)
    (ht : s.tasks task = .ready)
    (hlt : cpu < cfg.cpus) :
    (s.process cpu task nature args).Inv cfg ∧
    (s.life cfg).Move (.bind (args.construct s.serial cpu task nature))
      ((s.process cpu task nature args).life cfg) := by
  set op := args.construct s.serial cpu task nature with hop
  constructor
  · exact {
      queue := I.queue
      cpus := by
        intro c
        by_cases h : c = cpu
        · subst h
          have := I.cpus c
          rw [hc] at this
          simp only [process, Function.update_self]
          exact ⟨this, by simp, by simp, by simp⟩
        · simp only [process, Function.update_of_ne h]
          refine (I.cpus c).tasks_congr fun t hst => ?_
          rw [Function.update_of_ne]
          rintro rfl
          rw [(I.cpus c).tasks_of_task hst] at ht
          cases ht
      tasks := I.tasks_update (.inr hc) (by simp [TaskInv, Cpu.task])
      outside := by
        intro c hge
        have : c ≠ cpu := by omega
        simpa [process, this] using I.outside c hge
      objects := by
        intro kind
        have hsum := sum_held_eq s.cpus hlt kind (.bound op) (by rw [hc]; rfl)
        rw [← I.objects kind]
        simp only [live, process, ← hop, hsum]
        rfl
      self := I.self
      pending_le := I.pending_le
      consuming := I.consuming
      poll := I.poll.mono (List.subset_append_left ..) }
  · have hag : (s.process cpu task nature args).agent = update s.agent task (.bound op) :=
      I.agents_update (.inr hc) (fun t h => Function.update_of_ne h ..)
        (fun c h => Function.update_of_ne h ..) (fun _ _ _ _ => rfl)
        (by simp [agent, process, ← hop])
    have hready : (s.life cfg).agents op.task = .ready := by simp [life, agent, ht, hop]
    have hb := Life.Move.bind hready (by simp [life, hop]) (by simp [hop])
    convert hb using 1
    ext1 <;> try rfl
    rw [show op.task = task by simp [hop]]
    exact hag

/-! ## Live objects -/

theorem Inv.mem_live_contents (I : s.Inv cfg) (h : o ∈ s.p2pOperations.contents cfg.queue c) :
    o ∈ s.live cfg .p2p := by
  have hlt : c < cfg.cpus := by
    by_contra hge
    simp [(I.outside c (by omega)).2] at h
  refine Multiset.mem_add.mpr (.inl (Multiset.mem_add.mpr (.inr (Multiset.mem_add.mpr (.inl ?_)))))
  exact Multiset.mem_sum.mpr ⟨c, Finset.mem_range.mpr hlt, h⟩

theorem mem_live_vals (h : o ∈ s.p2pOperations.consumer.vals) : o ∈ s.live cfg .p2p :=
  Multiset.mem_add.mpr (.inl (Multiset.mem_add.mpr (.inr (Multiset.mem_add.mpr (.inr h)))))

theorem mem_live_coll (h : o ∈ s.collOperations) : o ∈ s.live cfg .coll :=
  Multiset.mem_add.mpr (.inl (Multiset.mem_add.mpr (.inr h)))

theorem mem_live_transfer (hp : s.poll = .transfer total w np2p x) (h : o ∈ x.operations) :
    o ∈ s.live cfg x.kind :=
  Multiset.mem_add.mpr (.inr (by simpa [hp, Poll.transferring] using h))

theorem Inv.mem_live_held (I : s.Inv cfg) (h : o ∈ (s.cpus c).held kind) : o ∈ s.live cfg kind := by
  have hlt : c < cfg.cpus := I.cpu_lt c fun hc => by simp [hc, Cpu.held] at h
  refine Multiset.mem_add.mpr (.inl (Multiset.mem_add.mpr (.inl ?_)))
  exact Multiset.mem_sum.mpr ⟨c, Finset.mem_range.mpr hlt, h⟩

/-- A new operation is written to an object that holds no other one. -/
theorem Inv.objects_frame (I : s.Inv cfg) (op : Op)
    (hu : object ∈ (s.allocators kind).unused cfg.cpus)
    (h : o ∈ s.live cfg kind') :
    update s.objects kind (update (s.objects kind) object op) kind' o = s.objects kind' o := by
  by_cases hk : kind' = kind
  · subst hk
    rw [Function.update_self, Function.update_of_ne]
    rintro rfl
    have hnodup := Multiset.nodup_range (cfg.sizes.objects kind')
    rw [← I.objects kind'] at hnodup
    exact Multiset.disjoint_left.mp (Multiset.nodup_add.mp hnodup).2.2 hu h
  · rw [Function.update_of_ne hk]

/-- The queues and the batch only depend on the objects that hold an operation. -/
theorem Inv.life_congr (I : s.Inv cfg) (objects : OpKind → Nat → Op)
    (h : ∀ kind, ∀ o ∈ s.live cfg kind, objects kind o = s.objects kind o) :
    ({ s with objects := objects } : Sys).queue cfg = s.queue cfg ∧
    ({ s with objects := objects } : Sys).batch = s.batch := by
  constructor
  · funext line
    cases line with
    | p2p c => exact List.map_congr_left fun o ho => h _ o (I.mem_live_contents ho)
    | coll => exact List.map_congr_left fun o ho => h _ o (mem_live_coll ho)
  · unfold batch
    dsimp only
    split
    · rename_i hp
      exact List.map_congr_left fun o ho => h _ o (mem_live_transfer hp (List.mem_of_mem_drop ho))
    · exact List.map_congr_left fun o ho => h _ o (mem_live_vals ho)

theorem alloc_sim (I : s.Inv cfg) (hf : s.failure = none) (hc : s.cpus cpu = .bound op) :
    Sim cfg s (s.alloc cpu op) := by
  unfold alloc
  split
  · exact .failed rfl trivial nofun rfl rfl
  rename_i object a halloc
  have hlt := I.cpu_lt cpu (by simp [hc])
  have hunused := ObjAllocator.unused_alloc hlt halloc
  have hframe {kind' : OpKind} {o : Nat} (h : o ∈ s.live cfg kind') :=
    I.objects_frame op (hunused ▸ Multiset.mem_cons_self object _) h
  have hcpu := I.cpus cpu
  rw [hc] at hcpu
  obtain ⟨hfree, hid, hkind, htask⟩ := hcpu
  obtain ⟨hq, hb⟩ := I.life_congr _ fun kind o h => hframe h
  refine .ok hf ?_ ?_
  · exact {
      queue := I.queue
      cpus := by
        intro c
        by_cases h : c = cpu
        · subst h
          simp only [Function.update_self]
          refine ⟨hfree, ⟨?_, ?_, ?_, htask⟩⟩ <;> simp only [Function.update_self]
          · exact hid
          · exact hkind
        · simp only [Function.update_of_ne h]
          exact (I.cpus c).objects_congr fun kind o ho => hframe (I.mem_live_held ho)
      tasks := I.tasks_keep op.task (by rw [hc]; rfl) rfl
      outside := by
        intro c hge
        have : c ≠ cpu := by omega
        simpa [this] using I.outside c hge
      objects := by
        intro kind
        have hsum := sum_held s.cpus hlt kind (.allocated op.kind object op.context)
        rw [hc] at hsum
        change _ + 0 = _ at hsum
        rw [add_zero] at hsum
        rw [← I.objects kind]
        simp only [live, hsum]
        by_cases hk : kind = op.kind
        · subst hk
          rw [Function.update_self, hunused]
          simp only [Cpu.held, if_true, ← Multiset.singleton_add]
          simp only [queued]
          abel
        · rw [Function.update_of_ne hk]
          simp only [Cpu.held, Ne.symm hk, if_false, add_zero]
          rfl
      self := I.self
      pending_le := I.pending_le
      consuming := I.consuming
      poll := I.poll }
  · convert Life.Steps.refl using 1
    ext1 <;> try rfl
    · exact hq
    · exact hb
    · refine I.agents_keep cpu op.task (by rw [hc]; rfl) rfl ?_ ?_ ?_
      · exact fun c h => Function.update_of_ne h ..
      · exact fun c kind o ho => hframe (I.mem_live_held ho)
      · simp [agent, htask, hc]

theorem pushP2P_start (I : s.Inv cfg) (hf : s.failure = none)
    (hc : s.cpus cpu = .allocated .p2p object ctx) :
    Sim cfg s { s with
      p2pOperations := s.p2pOperations.push cpu object
      cpus := update s.cpus cpu (.pushing object ctx) } := by
  have hlt := I.cpu_lt cpu (by simp [hc])
  have hcpu := I.cpus cpu
  rw [hc] at hcpu
  obtain ⟨hfree, hsub⟩ := hcpu
  have F : MultiLockFreeQueue.ProducerFrame cpu s.p2pOperations
    (s.p2pOperations.push cpu object) := MultiLockFreeQueue.push_frame
  have hcont (c : Nat) : (s.p2pOperations.push cpu object).contents cfg.queue c =
      s.p2pOperations.contents cfg.queue c := MultiLockFreeQueue.push_contents I.queue hfree
  refine .ok hf ?_ ?_
  · exact {
      queue := I.queue.push hfree
      cpus := by
        intro c
        by_cases h : c = cpu
        · subst h
          simp only [Function.update_self]
          exact ⟨MultiLockFreeQueue.push_pushes object, hsub⟩
        · simp only [Function.update_of_ne h, F.producer c h]
          exact I.cpus c
      tasks := I.tasks_keep ctx.task (by rw [hc]; rfl) rfl
      outside := by
        intro c hge
        have : c ≠ cpu := by omega
        simpa [this, hcont] using I.outside c hge
      objects := by
        intro kind
        have hsum := sum_held_eq s.cpus hlt kind (.pushing object ctx)
          (by rw [hc]; cases kind <;> rfl)
        rw [← I.objects kind]
        simp only [live, hsum]
        congr 3
        cases kind with
        | p2p => simp only [queued, hcont, F.consumer]
        | coll => rfl
      self := I.self
      pending_le := I.pending_le
      consuming := I.consuming
      poll := by simpa only [F.consumer] using I.poll }
  · convert Life.Steps.refl using 1
    ext1 <;> try rfl
    · funext line
      cases line with
      | p2p c => simp only [life, queue, waiting, hcont]
      | coll => rfl
    · simp only [life, batch, F.consumer]
    · refine I.agents_keep cpu ctx.task (by rw [hc]; rfl) rfl ?_ ?_ ?_
      · exact fun c h => Function.update_of_ne h ..
      · exact fun _ _ _ _ => rfl
      · simp [agent, hsub.task, hc]

theorem Submitting.line (h : Submitting s.objects s.tasks cpu kind object ctx) :
    (s.objects kind object).id.line = kind.line cpu := by
  rw [OpId.line, h.id_kind, h.id_cpu]

theorem queued_push (coll : List Nat) (hlt : cpu < cfg.cpus)
    (hcons : q.consumer = s.p2pOperations.consumer)
    (hline : ({ s with p2pOperations := q, collOperations := coll } : Sys).waiting cfg =
      update (s.waiting cfg) (kind.line cpu) (s.waiting cfg (kind.line cpu) ++ [object]))
    (k : OpKind) :
    ({ s with p2pOperations := q, collOperations := coll } : Sys).queued cfg k =
      s.queued cfg k + if kind = k then {object} else 0 := by
  have hp2p (c : Nat) := congrFun hline (.p2p c)
  have hcoll := congrFun hline .coll
  cases k with
  | p2p =>
    cases kind with
    | p2p =>
      have hsum := Counting.sum_of_eq_off (q := cpu)
        (fun c => (s.p2pOperations.contents cfg.queue c : Multiset Nat))
        (fun c => (q.contents cfg.queue c : Multiset Nat)) hlt
        (fun c h => congrArg _ ((hp2p c).trans (Function.update_of_ne (by simpa [OpKind.line]) ..)))
      have hcpu : q.contents cfg.queue cpu = s.p2pOperations.contents cfg.queue cpu ++ [object] :=
        (hp2p cpu).trans (Function.update_self ..)
      rw [hcpu, ← Multiset.coe_add, Multiset.coe_singleton, ← add_assoc, add_right_comm] at hsum
      simp only [queued, if_true, hcons, add_right_cancel hsum]
      abel
    | coll =>
      have hc (c : Nat) : q.contents cfg.queue c = s.p2pOperations.contents cfg.queue c :=
        (hp2p c).trans (Function.update_of_ne (by simp [OpKind.line]) ..)
      simp [queued, hcons, hc]
  | coll =>
    cases kind with
    | p2p =>
      have : coll = s.collOperations :=
        hcoll.trans (Function.update_of_ne (by simp [OpKind.line]) ..)
      simp [queued, this]
    | coll =>
      have : coll = s.collOperations ++ [object] := hcoll.trans (Function.update_self ..)
      simp only [queued, this, if_true]
      rfl

/-- `addOperation` returns: the object has entered its line. -/
theorem pushDone_sim (q : MultiLockFreeQueue Nat) (coll : List Nat) (I : s.Inv cfg)
    (hf : s.failure = none)
    (hsub : Submitting s.objects s.tasks cpu kind object ctx)
    (htask : (s.cpus cpu).task = some ctx.task)
    (hag : s.agent ctx.task = .bound (s.objects kind object))
    (hheld : ∀ k, (s.cpus cpu).held k = if kind = k then {object} else 0)
    (hq : MultiLockFreeQueue.QueueInv cfg.queue q)
    (hfree : (q.producer cpu).free)
    (hprod : ∀ c, c ≠ cpu → q.producer c = s.p2pOperations.producer c)
    (hcons : q.consumer = s.p2pOperations.consumer)
    (hline : ({ s with p2pOperations := q, collOperations := coll } : Sys).waiting cfg =
      update (s.waiting cfg) (s.objects kind object).id.line
        (s.waiting cfg (s.objects kind object).id.line ++ [object])) :
    Sim cfg s (({ s with p2pOperations := q, collOperations := coll } : Sys).pushDone cpu kind object
      ctx) := by
  have hlt := I.cpu_lt cpu (by rintro h; simp [h, Cpu.task] at htask)
  have hctx := hsub.context
  have hop : (s.objects kind object).task = ctx.task := by rw [← hctx]; rfl
  refine .ok hf ?_ (.single (a := .push (s.objects kind object)) ?_ rfl)
  · exact {
      queue := hq
      cpus := by
        intro c
        by_cases h : c = cpu
        · subst h
          simp only [pushDone, Function.update_self]
          split
          · exact ⟨hfree, hsub.task⟩
          · exact hfree
        · simp only [pushDone, Function.update_of_ne h, hprod c h]
          split
          · exact I.cpus c
          · refine (I.cpus c).tasks_congr fun t ht => Function.update_of_ne ?_ ..
            rintro rfl
            have := ((I.cpus c).tasks_of_task ht).symm.trans hsub.task
            exact h (by simpa using this)
      tasks := by
        intro t
        simp only [pushDone]
        split
        · exact I.tasks_keep ctx.task htask rfl t
        · exact I.tasks_update (.inl htask) (by simp [TaskInv]) t
      outside := by
        intro c hge
        have hne : c ≠ cpu := by omega
        have hc := congrFun hline (.p2p c)
        rw [Submitting.line hsub, Function.update_of_ne (by
          cases kind <;> simp [OpKind.line, hne])] at hc
        refine ⟨?_, hc.trans (I.outside c hge).2⟩
        simpa [pushDone, hne] using (I.outside c hge).1
      objects := by
        intro k
        have hsum := sum_held s.cpus hlt k (if ctx.blocking then .pushed ctx else .idle)
        have hzero : (if ctx.blocking then Cpu.pushed ctx else .idle).held k = 0 := by
          split <;> rfl
        rw [hzero, add_zero, hheld k] at hsum
        have hqueued := queued_push coll hlt hcons (Submitting.line hsub ▸ hline) k
        rw [← I.objects k]
        simp only [live, ← hsum]
        change _ + (_ + ({ s with p2pOperations := q, collOperations := coll } : Sys).queued cfg k + _)
          = _
        rw [hqueued]
        simp only [pushDone]
        abel
      self := I.self
      pending_le := I.pending_le
      consuming := I.consuming
      poll := by
        simp only [pushDone, hcons]
        exact I.poll.mono (List.subset_append_left ..) }
  · have hbound : (s.life cfg).agents (s.objects kind object).task =
        .bound (s.objects kind object) := by simpa [life, hop] using hag
    have hmove := Life.Move.push hbound
    convert hmove using 1
    ext1 <;> try rfl
    · funext line
      have := congrArg (List.map (s.objects line.kind)) (congrFun hline line)
      refine this.trans ?_
      by_cases h : line = (s.objects kind object).id.line
      · subst h
        simp only [Function.update_self, OpId.line_kind, hsub.id_kind, List.map_append]
        simp [Life.setAgent, Life.append, life, queue, OpId.line_kind, hsub.id_kind]
      · simp [Life.setAgent, Life.append, life, queue, h]
    · simp only [life, batch, pushDone, hcons]
      rfl
    · simp only [Life.append, Life.setAgent, hctx, hop]
      refine I.agents_update (.inl htask) ?_ ?_ ?_ ?_
      · intro t ht
        simp only [pushDone]
        split
        · rfl
        · exact Function.update_of_ne ht ..
      · exact fun c h => Function.update_of_ne h ..
      · exact fun _ _ _ _ => rfl
      · by_cases hb : ctx.blocking <;> simp [agent, pushDone, hb, hsub.task]

theorem pushColl_sim (I : s.Inv cfg) (hf : s.failure = none)
    (hc : s.cpus cpu = .allocated .coll object ctx) :
    Sim cfg s (s.pushColl cfg cpu object ctx) := by
  have hcpu := I.cpus cpu
  rw [hc] at hcpu
  obtain ⟨hfree, hsub⟩ := hcpu
  unfold pushColl
  split
  · refine pushDone_sim s.p2pOperations _ I hf hsub (by rw [hc]; rfl) ?_ ?_ I.queue hfree
      (fun _ _ => rfl) rfl ?_
    · simp [agent, hsub.task, hc]
    · simp [hc, Cpu.held]
    · rw [Submitting.line hsub]
      funext line
      cases line with
      | p2p c => rfl
      | coll => rfl
  · split
    · exact .failed rfl trivial nofun rfl rfl
    · exact .ok hf I .refl

/-- A step of a `push` that has not yet published its element. -/
theorem pushP2P_keep (I : s.Inv cfg) (hf : s.failure = none) (hc : s.cpus cpu = .pushing object ctx)
    (hsub : Submitting s.objects s.tasks cpu .p2p object ctx)
    (hq : MultiLockFreeQueue.QueueInv cfg.queue q)
    (hprod : ∀ c, c ≠ cpu → q.producer c = s.p2pOperations.producer c)
    (hcons : q.consumer = s.p2pOperations.consumer)
    (hcont : q.contents cfg.queue = s.p2pOperations.contents cfg.queue)
    (hv : CpuInv s.objects s.tasks (q.producer cpu) cpu v) (htask : v.task = some ctx.task)
    (hheld : ∀ k, v.held k = (Cpu.pushing object ctx).held k)
    (hag : ({ s with cpus := update s.cpus cpu v } : Sys).agent ctx.task =
      .bound (s.objects .p2p object)) :
    Sim cfg s { s with p2pOperations := q, cpus := update s.cpus cpu v } := by
  have hlt := I.cpu_lt cpu (by simp [hc])
  refine .ok hf ?_ ?_
  · exact {
      queue := hq
      cpus := by
        intro c
        by_cases h : c = cpu
        · subst h
          simpa only [Function.update_self] using hv
        · simpa only [Function.update_of_ne h, hprod c h] using I.cpus c
      tasks := I.tasks_keep ctx.task (by rw [hc]; rfl) htask
      outside := by
        intro c hge
        have : c ≠ cpu := by omega
        simpa [this, hcont] using I.outside c hge
      objects := by
        intro kind
        have hsum := sum_held_eq s.cpus hlt kind v (by rw [hc, hheld])
        rw [← I.objects kind]
        simp only [live, hsum]
        congr 3
        cases kind with
        | p2p => simp only [queued, hcont, hcons]
        | coll => rfl
      self := I.self
      pending_le := I.pending_le
      consuming := I.consuming
      poll := by simpa only [hcons] using I.poll }
  · convert Life.Steps.refl using 1
    ext1 <;> try rfl
    · funext line
      cases line with
      | p2p c => simp only [life, queue, waiting, hcont]
      | coll => rfl
    · simp only [life, batch, hcons]
    · refine I.agents_keep cpu ctx.task (by rw [hc]; rfl) rfl ?_ ?_ ?_
      · exact fun c h => Function.update_of_ne h ..
      · exact fun _ _ _ _ => rfl
      · refine hag.trans ?_
        simp [agent, hsub.task, hc]

theorem pushP2P_sim (I : s.Inv cfg) (hf : s.failure = none) (hc : s.cpus cpu = .pushing object ctx)
    (h : s.pushP2P cfg cpu object ctx = some s') : Sim cfg s s' := by
  have hcpu := I.cpus cpu
  rw [hc] at hcpu
  obtain ⟨hpush, hsub⟩ := hcpu
  obtain ⟨q, hq, rfl⟩ := Option.map_eq_some_iff.mp h
  have HQ := I.queue.producerStep hq
  have F := MultiLockFreeQueue.producerStep_frame hq
  rcases MultiLockFreeQueue.producerStep_contents I.queue hq hpush with
    ⟨hret, hcont⟩ | ⟨hcont, hret | hret⟩
  · simp only [hret]
    refine pushDone_sim q s.collOperations I hf hsub (by rw [hc]; rfl) ?_ ?_ HQ
      (by simp [hret, Producer.free]) F.producer F.consumer ?_
    · simp [agent, hsub.task, hc]
    · simp [hc, Cpu.held, eq_comm]
    · rw [Submitting.line hsub]
      funext line
      cases line with
      | p2p c =>
        by_cases h : c = cpu
        · subst h
          simp [waiting, hcont, OpKind.line]
        · simp [waiting, hcont, OpKind.line, h]
      | coll => rfl
  · simp only [hret]
    split
    · exact .failed rfl trivial (by intro hf; cases hf) rfl rfl
    · exact pushP2P_keep I hf hc hsub HQ F.producer F.consumer hcont
        ⟨by simp [hret, Producer.free], hsub⟩ rfl (fun k => by cases k <;> rfl)
        (by simp [agent, hsub.task])
  · have := pushP2P_keep (v := .pushing object ctx) I hf hc hsub HQ F.producer F.consumer hcont
      ⟨hret, hsub⟩ rfl (fun _ => rfl) (by simp [agent, hsub.task])
    rw [← hc, Function.update_eq_self] at this
    cases hp : q.producer cpu with
    | returned ok => simp [hp, Producer.Pushes] at hret
    | idle | refresh | write | publish => exact this

/-- `waitEventsCompletion` is called. -/
theorem block_sim (I : s.Inv cfg) (hf : s.failure = none) (hc : s.cpus cpu = .pushed ctx) :
    Sim cfg s { s with
      cpus := update s.cpus cpu .idle
      tasks := update s.tasks ctx.task (.blocked ctx)
      log := s.log ++ [.block ctx] } := by
  have hlt := I.cpu_lt cpu (by simp [hc])
  have hcpu := I.cpus cpu
  rw [hc] at hcpu
  obtain ⟨hfree, htask⟩ := hcpu
  have hcpu : (s.cpus cpu).task = some ctx.task := by rw [hc]; rfl
  refine .ok hf ?_ (.single (a := .block ctx) ?_ rfl)
  · exact {
      queue := I.queue
      cpus := by
        intro c
        by_cases h : c = cpu
        · subst h
          simp only [Function.update_self]
          exact hfree
        · simp only [Function.update_of_ne h]
          refine (I.cpus c).tasks_congr fun t ht => ?_
          rw [Function.update_of_ne]
          rintro rfl
          have := ((I.cpus c).tasks_of_task ht).symm.trans htask
          exact h (by simpa using this)
      tasks := I.tasks_update (.inl hcpu) (by simp [TaskInv])
      outside := by
        intro c hge
        have : c ≠ cpu := by omega
        simpa [this] using I.outside c hge
      objects := by
        intro kind
        have hsum := sum_held_eq s.cpus hlt kind .idle (by rw [hc]; rfl)
        rw [← I.objects kind]
        simp only [live, hsum]
        rfl
      self := I.self
      pending_le := I.pending_le
      consuming := I.consuming
      poll := I.poll.mono (List.subset_append_left ..) }
  · have hpushed : (s.life cfg).agents ctx.task = .pushed ctx := by simp [life, agent, htask, hc]
    have hmove := Life.Move.block hpushed
    convert hmove using 1
    ext1 <;> try rfl
    refine I.agents_update (.inl hcpu) ?_ ?_ ?_ ?_
    · exact fun t h => Function.update_of_ne h ..
    · exact fun c h => Function.update_of_ne h ..
    · exact fun _ _ _ _ => rfl
    · simp [agent]

theorem cpuStep_sim (I : s.Inv cfg) (hf : s.failure = none) (h : s.cpuStep cfg cpu = some s') :
    Sim cfg s s' := by
  unfold cpuStep at h
  split at h
  · cases h
  · cases h; exact alloc_sim I hf ‹_›
  · cases h; exact pushP2P_start I hf ‹_›
  · cases h; exact pushColl_sim I hf ‹_›
  · exact pushP2P_sim I hf ‹_› h
  · cases h; exact block_sim I hf ‹_›

/-- `alpi_task_block` returns. -/
theorem resume_sim (I : s.Inv cfg) (hf : s.failure = none) (h : s.resume task = some s') :
    Sim cfg s s' := by
  unfold resume at h
  split at h
  · rename_i ctx ht
    split at h
    · rename_i hp
      cases h
      have htask := I.tasks task
      rw [ht] at htask
      obtain rfl : ctx.task = task := htask
      refine .ok hf ?_ (.single (a := .resume ctx) ?_ rfl)
      · exact {
          __ := I
          cpus := by
            intro c
            refine (I.cpus c).tasks_congr fun t hst => ?_
            dsimp only
            rw [Function.update_of_ne]
            rintro rfl
            rw [(I.cpus c).tasks_of_task hst] at ht
            cases ht
          tasks := by
            intro t
            by_cases h : t = ctx.task
            · subst h; simp [TaskInv]
            · simpa only [Function.update_of_ne h] using I.tasks t
          poll := I.poll.mono (List.subset_append_left ..) }
      · have hblocked : (s.life cfg).agents ctx.task = .blocked ctx := by simp [life, agent, ht]
        have hmove := Life.Move.resume hblocked hp
        convert hmove using 1
        ext1 <;> try rfl
        funext t
        by_cases h : t = ctx.task
        · subst h; simp [life, agent, Life.append, Life.setAgent]
        · simp [life, agent, Life.append, Life.setAgent, h]
    · cases h
  · cases h

/-! ## The completion task and MPI -/

theorem completionStep_sim (I : s.Inv cfg) (hf : s.failure = none)
    (h : s.completionStep = some s') : Sim cfg s s' := by
  unfold completionStep at h
  split at h
  · split at h
    · cases h
    · cases h
      exact .ok hf { I with consuming := by rintro _ ⟨⟩; exact le_refl _ } .refl
  · cases h
    exact .ok hf { I with consuming := by rintro _ ⟨⟩ } .refl
  · rename_i left hleft
    split at h
    · cases h
    · rename_i ctx rest hctx
      cases h
      refine .ok hf ?_ (.single (a := .consume ctx) ?_ rfl)
      · exact {
          __ := I
          consuming := by
            rintro _ ⟨⟩
            have := I.consuming _ hleft
            rw [hctx] at this
            simpa [complete] using this
          poll := I.poll.mono (List.subset_append_left ..) }
      · exact Life.Move.consume (L := s.life cfg) hctx

theorem mpi_sim (I : s.Inv cfg) (hf : s.failure = none) (h : s.mpi r = some ⟨owner, none⟩) :
    Sim cfg s { s with mpi := update s.mpi r (some ⟨owner, some status⟩) } :=
  .ok hf { I with } (.single (a := .complete r status) (.complete h) rfl)

end Sys

end Tampi
