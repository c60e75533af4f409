import Kernelwright.Bounded
import Kernelwright.Proofs.Steps

/-!
# What the cache holds

A compiler with a cache answers every request as one that has compiled nothing before, as long as no
two different requests have the same identity. The proof keeps an account of the cache over any
sequence of calls: its entries are the kernels of the requests that were compiled, one for each
device, and there are no others.
-/

namespace Kernelwright

/-! ### Caches -/

namespace KernelCache

variable {c : KernelCache} {id : String} {device : Nat} {k : DeviceKernel} {e : CacheEntry}
variable {kernels : List DeviceKernel}

theorem isFor_iff : isFor id device e = true ↔ e.id = id ∧ e.kernel.device = device := by
  simp [isFor]

/-- Two entries belong to different requests or to different devices. -/
def Apart (e e' : CacheEntry) : Prop := ¬ (e.id = e'.id ∧ e.kernel.device = e'.kernel.device)

theorem mem_insert : e ∈ (c.insert id k).entries ↔
    e = ⟨id, k⟩ ∨ (e ∈ c.entries ∧ ¬ (e.id = id ∧ e.kernel.device = k.device)) := by
  simp only [insert, List.mem_cons, List.mem_filter, Bool.not_eq_true', ← Bool.not_eq_true,
    isFor_iff]

theorem pairwise_insert (h : c.entries.Pairwise Apart) :
    (c.insert id k).entries.Pairwise Apart := by
  refine List.pairwise_cons.2 ⟨?_, h.filter _⟩
  intro e he hsame
  obtain ⟨-, hapart⟩ := List.mem_filter.1 he
  rw [isFor_iff.2 ⟨hsame.1.symm, hsame.2.symm⟩] at hapart
  cases hapart

theorem mem_commit (hkernels : kernels.Pairwise (·.device ≠ ·.device)) :
    e ∈ (c.commit id kernels).entries ↔ (e.id = id ∧ e.kernel ∈ kernels) ∨
      (e ∈ c.entries ∧ ∀ k ∈ kernels, ¬ (e.id = id ∧ e.kernel.device = k.device)) := by
  induction kernels generalizing c with
  | nil => simp [commit]
  | cons k kernels ih =>
    obtain ⟨hk, hkernels⟩ := List.pairwise_cons.1 hkernels
    show e ∈ ((c.insert id k).commit id kernels).entries ↔ _
    rw [ih hkernels, mem_insert]
    constructor
    · rintro (⟨hid, he⟩ | ⟨rfl | ⟨he, hne⟩, hrest⟩)
      · exact .inl ⟨hid, .tail _ he⟩
      · exact .inl ⟨rfl, .head _⟩
      · exact .inr ⟨he, List.forall_mem_cons.2 ⟨hne, hrest⟩⟩
    · rintro (⟨rfl, he⟩ | ⟨he, hrest⟩)
      · obtain he | he := List.mem_cons.1 he
        · -- the first kernel is not replaced by a later one
          refine .inr ⟨.inl (by rw [← he]), ?_⟩
          intro k' hk' hsame
          exact hk k' hk' (he ▸ hsame.2)
        · exact .inl ⟨rfl, he⟩
      · obtain ⟨hne, hrest⟩ := List.forall_mem_cons.1 hrest
        exact .inr ⟨.inr ⟨he, hne⟩, hrest⟩

theorem pairwise_commit (h : c.entries.Pairwise Apart) :
    (c.commit id kernels).entries.Pairwise Apart := by
  induction kernels generalizing c with
  | nil => exact h
  | cons k kernels ih => exact ih (pairwise_insert h)

/-! ### Looking up kernels -/

theorem get?_eq_some (h : c.get? id device = some k) :
    ⟨id, k⟩ ∈ c.entries ∧ k.device = device := by
  obtain ⟨e, he, rfl⟩ := Option.map_eq_some_iff.1 h
  obtain ⟨rfl, hdevice⟩ := isFor_iff.1 (List.find?_some he)
  exact ⟨List.mem_of_find?_eq_some he, hdevice⟩

theorem filter_isFor (h : c.entries.Pairwise Apart) (hk : ⟨id, k⟩ ∈ c.entries) :
    c.entries.filter (isFor id k.device) = [⟨id, k⟩] := by
  have hmem : ⟨id, k⟩ ∈ c.entries.filter (isFor id k.device) :=
    List.mem_filter.2 ⟨hk, isFor_iff.2 ⟨rfl, rfl⟩⟩
  have hfor : ∀ e ∈ c.entries.filter (isFor id k.device), e.id = id ∧ e.kernel.device = k.device :=
    fun e he => isFor_iff.1 (List.mem_filter.1 he).2
  have hapart := h.filter (isFor id k.device)
  generalize c.entries.filter (isFor id k.device) = l at hmem hfor hapart ⊢
  match l with
  | [] => cases hmem
  | [e] => rw [List.mem_singleton.1 hmem]
  | e :: e' :: l =>
    -- two of them would be apart, but both are for the same request and device
    have he := hfor e (.head _)
    have he' := hfor e' (.tail _ (.head _))
    have hne : Apart e e' := (List.pairwise_cons.1 hapart).1 e' (.head _)
    exact absurd ⟨he.1.trans he'.1.symm, he.2.trans he'.2.symm⟩ hne

theorem get?_of_mem (h : c.entries.Pairwise Apart) (hk : ⟨id, k⟩ ∈ c.entries) :
    c.get? id k.device = some k := by
  rw [get?, ← List.head?_filter, filter_isFor h hk]
  rfl

theorem getFrom?_eq_some {count : Nat} : c.getFrom? id device count = some kernels ↔
    (List.range' device count).map (c.get? id) = kernels.map some := by
  induction count generalizing device kernels with
  | zero => cases kernels <;> simp [getFrom?]
  | succ count ih =>
    rw [getFrom?, List.range'_succ, List.map_cons]
    cases hk : c.get? id device with
    | none => cases kernels <;> simp
    | some k =>
      cases hrest : c.getFrom? id (device + 1) count with
      | none =>
        have hnone (ks : List DeviceKernel) :
            (List.range' (device + 1) count).map (c.get? id) ≠ ks.map some := by
          intro hks
          rw [ih.2 hks] at hrest
          cases hrest
        cases kernels with
        | nil => simp
        | cons k' kernels => simp [hnone kernels]
      | some ks =>
        rw [ih.1 hrest]
        cases kernels with
        | nil => simp
        | cons k' kernels =>
          simp [List.map_inj_right]

end KernelCache

/-! ### Sequences of calls -/

namespace Offload

open KernelCache (Apart)

/-- The identity and the kernels that a call gives, or why it gives none. -/
def answer (o : Offload) (r : Request) :
    Except (Limited KernelError) (String × List DeviceKernel) :=
  (Bounded.serve o r).1.map fun c => (c.id, c.kernels)

def after (o : Offload) (r : Request) : Offload := (Bounded.serve o r).2

def afterAll (o : Offload) (rs : List Request) : Offload := rs.foldl after o

def firstAnswer (options : Options) (r : Request) :
    Except (Limited KernelError) (String × List DeviceKernel) := (start options).answer r

/-- An entry of the cache is a kernel that one of the requests is given, and no two are for the same
request and device. -/
structure Accounts (o : Offload) (options : Options) (history : List Request) : Prop where
  options_eq : o.options = options
  apart : o.cache.entries.Pairwise Apart
  mem_iff : ∀ e, e ∈ o.cache.entries ↔
    ∃ r ∈ history, ∃ kernels, firstAnswer options r = .ok (e.id, kernels) ∧ e.kernel ∈ kernels

variable {o : Offload} {options : Options} {history : List Request} {r : Request}
variable {id : String} {kernels : List DeviceKernel}

theorem devices_pos (o : Offload) : 0 < o.devices := by
  simp only [devices]
  omega

theorem devices_eq (h : o.options = options) : o.devices = (start options).devices := by
  rw [devices, h]
  rfl

theorem getAll?_start : (start options).cache.getAll? id (start options).devices = none := by
  obtain ⟨n, hn⟩ := Nat.exists_eq_succ_of_ne_zero (Nat.ne_of_gt (start options).devices_pos)
  rw [hn]
  rfl

theorem generate_eq (h : o.options = options) : o.generate r = (start options).generate r := by
  unfold generate
  rw [devices_eq h, h]
  rfl

theorem generate_devices {s : Lowering.Session} (h : o.generate r = .ok (kernels, s)) :
    kernels.map (·.device) = List.range o.devices := by
  unfold generate at h
  split at h
  · cases h
  · cases h
    simp [Function.comp_def, DeviceKernel.ofKernel]

theorem compile_start : (start options).compile r = match (start options).generate r with
    | .error e => (.error e, start options)
    | .ok (kernels, s) => (.ok ⟨r.identity, kernels, s.diagnostics, s.extra, false⟩,
        ⟨options, KernelCache.empty.commit r.identity kernels⟩) := by
  rw [compile, getAll?_start]
  rfl

/-- The kernels are in the cache, or they are generated and stored, or there are none and nothing is
stored. -/
theorem answer_cases (h : o.options = options) :
    (∃ kernels, o.cache.getAll? r.identity o.devices = some kernels ∧
        o.answer r = .ok (r.identity, kernels) ∧ o.after r = o) ∨
      (∃ kernels, firstAnswer options r = .ok (r.identity, kernels) ∧
        kernels.map (·.device) = List.range o.devices ∧ o.answer r = .ok (r.identity, kernels) ∧
        o.after r = { o with cache := o.cache.commit r.identity kernels }) ∨
      ∃ e, firstAnswer options r = .error e ∧ o.answer r = .error e ∧ o.after r = o := by
  subst h
  unfold firstAnswer answer after Bounded.serve
  rw [← devices_eq rfl, compile_start, ← generate_eq rfl]
  by_cases hfits : Memory.fits o.devices Memory.kernelBytes
  · rw [if_pos hfits, if_pos hfits, compile]
    cases o.cache.getAll? r.identity o.devices with
    | some kernels => exact .inl ⟨kernels, rfl, rfl, rfl⟩
    | none =>
      refine .inr ?_
      cases hgenerate : o.generate r with
      | error e => exact .inr ⟨_, rfl, rfl, rfl⟩
      | ok result => exact .inl ⟨_, rfl, generate_devices hgenerate, rfl, rfl⟩
  · rw [if_neg hfits, if_neg hfits]
    refine .inr (.inr ?_)
    rw [show (start o.options).options = o.options from rfl]
    cases r.generate (.start o.options) <;> exact ⟨_, rfl, rfl, rfl⟩

/-- The first answer to a request has its identity, and one kernel for each device. -/
theorem firstAnswer_eq_ok (h : firstAnswer options r = .ok (id, kernels)) :
    id = r.identity ∧ kernels.map (·.device) = List.range (start options).devices := by
  have hfirst := answer_cases (o := start options) (r := r) rfl
  rw [getAll?_start] at hfirst
  obtain ⟨_, hnone, -⟩ | ⟨kernels', hok, hdevices, -⟩ | ⟨e, herror, -⟩ := hfirst
  · cases hnone
  · cases hok.symm.trans h
    exact ⟨rfl, hdevices⟩
  · cases herror.symm.trans h

namespace Accounts

theorem ofStart (options : Options) : (start options).Accounts options [] where
  options_eq := rfl
  apart := .nil
  mem_iff e := by simp [start, KernelCache.empty]

theorem getAll?_eq (h : o.Accounts options history) (hr : r ∈ history)
    (hfirst : firstAnswer options r = .ok (id, kernels)) :
    o.cache.getAll? id o.devices = some kernels := by
  rw [KernelCache.getAll?, KernelCache.getFrom?_eq_some, ← List.range_eq_range',
    devices_eq h.options_eq, ← (firstAnswer_eq_ok hfirst).2, List.map_map]
  exact List.map_congr_left fun k hk =>
    KernelCache.get?_of_mem h.apart ((h.mem_iff _).2 ⟨r, hr, kernels, hfirst, hk⟩)

theorem mem_of_getAll? (h : o.Accounts options history)
    (hids : ∀ r' ∈ history, r'.identity = r.identity → r' = r)
    (hcache : o.cache.getAll? r.identity o.devices = some kernels) :
    r ∈ history ∧ firstAnswer options r = .ok (r.identity, kernels) := by
  have hfound := KernelCache.getFrom?_eq_some.1 hcache
  obtain ⟨n, hn⟩ := Nat.exists_eq_succ_of_ne_zero (Nat.ne_of_gt o.devices_pos)
  rw [hn, List.range'_succ, List.map_cons] at hfound
  cases kernels with
  | nil => cases hfound
  | cons k kernels =>
    -- the kernel of the first device tells which request it was
    have hk := KernelCache.get?_eq_some (List.cons.inj hfound).1
    obtain ⟨r', hr', kernels', hfirst, -⟩ := (h.mem_iff _).1 hk.1
    obtain rfl : r' = r := hids r' hr' (firstAnswer_eq_ok hfirst).1.symm
    cases (h.getAll?_eq hr' hfirst).symm.trans hcache
    exact ⟨hr', hfirst⟩

/-- A call gives what the first call would. -/
theorem answer_eq (h : o.Accounts options history)
    (hids : ∀ r' ∈ history, r'.identity = r.identity → r' = r) :
    o.answer r = firstAnswer options r := by
  obtain ⟨kernels, hcache, hanswer, -⟩ | ⟨kernels, hfirst, -, hanswer, -⟩ |
    ⟨e, hfirst, hanswer, -⟩ := answer_cases (r := r) h.options_eq
  · rw [hanswer, (h.mem_of_getAll? hids hcache).2]
  · rw [hanswer, hfirst]
  · rw [hanswer, hfirst]

theorem mem_append_iff {e : CacheEntry} :
    (∃ r' ∈ history ++ [r], ∃ kernels, firstAnswer options r' = .ok (e.id, kernels) ∧
        e.kernel ∈ kernels) ↔
      (∃ r' ∈ history, ∃ kernels, firstAnswer options r' = .ok (e.id, kernels) ∧
        e.kernel ∈ kernels) ∨
      ∃ kernels, firstAnswer options r = .ok (e.id, kernels) ∧ e.kernel ∈ kernels := by
  simp [or_and_right, exists_or]

theorem step (h : o.Accounts options history)
    (hids : ∀ r' ∈ history, r'.identity = r.identity → r' = r) :
    (o.after r).Accounts options (history ++ [r]) := by
  obtain ⟨kernels, hcache, -, hafter⟩ | ⟨kernels, hfirst, hdevices, -, hafter⟩ |
    ⟨e, hfirst, -, hafter⟩ := answer_cases (r := r) h.options_eq
  · obtain ⟨hr, -⟩ := h.mem_of_getAll? hids hcache
    rw [hafter]
    refine ⟨h.options_eq, h.apart, fun e => ?_⟩
    rw [h.mem_iff, mem_append_iff]
    exact ⟨.inl, fun he => he.elim id fun hnew => ⟨r, hr, hnew⟩⟩
  · rw [hafter]
    have hapart : kernels.Pairwise (·.device ≠ ·.device) := by
      have hnodup : (kernels.map (·.device)).Nodup := hdevices ▸ List.nodup_range
      exact List.pairwise_map.1 hnodup
    refine ⟨h.options_eq, KernelCache.pairwise_commit h.apart, fun e => ?_⟩
    rw [KernelCache.mem_commit hapart, h.mem_iff, mem_append_iff]
    constructor
    · rintro (⟨hid, he⟩ | ⟨he, -⟩)
      · exact .inr ⟨kernels, hid ▸ hfirst, he⟩
      · exact .inl he
    · rintro (⟨r', hr', kernels', hfirst', he⟩ | ⟨kernels', hfirst', he⟩)
      · by_cases hid : e.id = r.identity
        · -- an older entry of the same identity is the same kernel
          obtain rfl : r' = r := by
            refine hids r' hr' ?_
            rw [← (firstAnswer_eq_ok hfirst').1, hid]
          have hsame := (Prod.mk.inj (Except.ok.inj (hfirst.symm.trans hfirst'))).2
          exact .inl ⟨hid, hsame ▸ he⟩
        · exact .inr ⟨⟨r', hr', kernels', hfirst', he⟩, fun k _ hsame => hid hsame.1⟩
      · obtain ⟨hid, hsame⟩ := Prod.mk.inj (Except.ok.inj (hfirst.symm.trans hfirst'))
        exact .inl ⟨hid.symm, hsame ▸ he⟩
  · rw [hafter]
    refine ⟨h.options_eq, h.apart, fun e' => ?_⟩
    rw [h.mem_iff, mem_append_iff, hfirst]
    simp

theorem run {calls : List Request} (h : o.Accounts options history)
    (hids : ∀ a ∈ history ++ calls, ∀ b ∈ history ++ calls, a.identity = b.identity → a = b) :
    (o.afterAll calls).Accounts options (history ++ calls) := by
  induction calls generalizing o history with
  | nil => simpa [afterAll] using h
  | cons r calls ih =>
    have hstep : (o.after r).Accounts options (history ++ [r]) := by
      refine h.step fun a ha hsame => ?_
      exact hids a (List.mem_append_left _ ha) r (by simp) hsame
    rw [List.append_cons] at hids ⊢
    exact ih hstep hids

end Accounts

/-- The cache cannot be told from the answers. After any calls in which no two different requests
have the same identity, a call answers as on a new compiler; without kernels it leaves the cache as
it was; and the cache holds, for each request that was compiled, the kernel of each device once, and
nothing else. -/
theorem cache_is_transparent (options : Options) (history : List Request) (r : Request)
    (hids : ∀ a ∈ history ++ [r], ∀ b ∈ history ++ [r], a.identity = b.identity → a = b) :
    let o := (start options).afterAll history
    o.answer r = (start options).answer r ∧
      (∀ e, o.answer r = .error e → (o.after r).cache = o.cache) ∧
      (∀ r' ∈ history ++ [r], ∀ id kernels, (start options).answer r' = .ok (id, kernels) →
        kernels.map (·.device) = List.range (max options.devices.toNat 1) ∧
        ∀ k ∈ kernels, (o.after r).cache.entries.filter (KernelCache.isFor id k.device) = [⟨id, k⟩])
          ∧
      ∀ e ∈ (o.after r).cache.entries, ∃ r' ∈ history ++ [r], ∃ kernels,
        (start options).answer r' = .ok (e.id, kernels) ∧ e.kernel ∈ kernels := by
  intro o
  have hbefore : o.Accounts options history := by
    refine (Accounts.ofStart options).run fun a ha b hb => ?_
    exact hids a (List.mem_append_left _ ha) b (List.mem_append_left _ hb)
  have hr : ∀ a ∈ history, a.identity = r.identity → a = r := by
    intro a ha
    exact hids a (List.mem_append_left _ ha) r (by simp)
  have hafter : (o.after r).Accounts options (history ++ [r]) := hbefore.step hr
  refine ⟨hbefore.answer_eq hr, fun e he => ?_,
    fun r' hr' id kernels hfirst => ⟨?_, fun k hk => ?_⟩,
    fun e he => (hafter.mem_iff e).1 he⟩
  · obtain ⟨_, -, hok, -⟩ | ⟨_, -, -, hok, -⟩ | ⟨_, -, -, hsame⟩ :=
      answer_cases (r := r) hbefore.options_eq
    · cases hok.symm.trans he
    · cases hok.symm.trans he
    · rw [hsame]
  · exact (firstAnswer_eq_ok hfirst).2
  · exact KernelCache.filter_isFor hafter.apart
      ((hafter.mem_iff _).2 ⟨r', hr', kernels, hfirst, hk⟩)

/-! ### A request that is compiled twice -/

/-- A skeleton that does nothing. -/
def idle : Graph := .ofKinds "idle" [.start 1, .ret none]

/-- A request with a kernel, and one without. -/
def waiting : Request := { Sample.mapDouble with id := some "waiting", skeleton := some idle }

def broken : Request := { waiting with id := some "broken", lambda := ⟨"broken", #[]⟩ }

def twoDevices : Options := { Options.default with devices := 2 }

theorem waiting_compiles :
    ∃ kernels, (start twoDevices).answer waiting = .ok ("waiting", kernels) := by
  have hrun : ∃ r, (start twoDevices).answer waiting = .ok r ∧ r.1 = "waiting" := by decide +kernel
  obtain ⟨⟨_, kernels⟩, hrun, rfl⟩ := hrun
  exact ⟨kernels, hrun⟩

theorem cache_is_transparent_repeated :
    (∃ kernels, (start twoDevices).answer waiting = .ok ("waiting", kernels)) ∧
      (∃ e, (start twoDevices).answer broken = .error e) ∧
      let o := (start twoDevices).afterAll [waiting, broken]
      o.answer waiting = (start twoDevices).answer waiting ∧
      ∀ kernels, o.answer waiting = .ok ("waiting", kernels) →
        kernels.map (·.device) = [0, 1] ∧ ∀ k ∈ kernels,
          (o.after waiting).cache.entries.filter (KernelCache.isFor "waiting" k.device) =
            [⟨"waiting", k⟩] := by
  obtain ⟨hsame, -, hentries, -⟩ :=
    cache_is_transparent twoDevices [waiting, broken] waiting (by decide)
  refine ⟨waiting_compiles, ⟨_, rfl⟩, hsame, fun kernels hok => ?_⟩
  exact hentries waiting (by decide) "waiting" kernels (hsame ▸ hok)

end Offload

end Kernelwright
