import ShmAlloc.Ns
import ShmAlloc.Guarantees.Open

/-!
# The cgroup fingerprint

What the fingerprint of a process is a function of, and whom `SHM_OPEN_ENFORCE_CGROUP` keeps out of
a region.  The creator stores its fingerprint in the header, where no later step touches it.

## What is here

* `fnv1a` and `fingerprint`: the hash of a content, and what becomes of a hash that is 0.
* `shmNsCgroupHash_eq`: **the fingerprint is that of the bytes delivered**, however the reads cut
  them and whatever ended them.
* `CreatedBy` and `CreatedBy.header`: the creator's fingerprint stays in the header.
* `shmRegionOpen_enforcing`: what the check adds to a call that attaches, stated by comparison with
  the same call without the check.
* `LetsIn` and `letsIn_iff`: who has the fingerprint of the creator is let in, and nobody else.
* `ReadsAll`: no read fails before all of the content has been delivered.
* `cgroup_fingerprint`: **the fingerprint depends on the content alone, and a process with the
  content of the creator's is let in, exactly as far as no read fails too early.**
* `cgroup_fingerprint_fails`: an interrupted read passes for the end of the file.
-/

set_option autoImplicit false

namespace ShmAlloc

open Stream Tiling

variable {G : Geometry} {m m' : Mem} {bs : List Blk}

/-! ## The hash

The code hashes buffer by buffer and carries the state along, so cutting the content differently is
associativity of a fold. -/

/-- The 64-bit FNV-1a hash. -/
def fnv1a (bs : List UInt8) : UInt64 :=
  bs.foldl (fun hash b => (hash ^^^ b.toUInt64) * 1099511628211) 14695981039346656037

/-- The fingerprint of a content: its hash, but never 0. -/
def fingerprint (bs : List UInt8) : UInt64 := if fnv1a bs = 0 then 1 else fnv1a bs

theorem fingerprint_ne_zero (bs : List UInt8) : fingerprint bs ≠ 0 := by
  rw [fingerprint]
  split
  · decide
  · assumption

theorem hashBuf_eq_foldl (hash : UInt64) (buf : List UInt8) :
    hashBuf hash buf = buf.foldl (fun hash b => (hash ^^^ b.toUInt64) * FNV_PRIME) hash := by
  induction buf generalizing hash with
  | nil => rfl
  | cons b buf ih => rw [hashBuf, ih, List.foldl_cons]

/-- **The fingerprint is that of what was delivered**, however it was cut and however it ended. -/
theorem shmNsCgroupHash_eq (rs : CgroupReads) :
    shmNsCgroupHash (some rs) = fingerprint rs.delivered := by
  have hhash : hashReads FNV_OFFSET_BASIS rs = fnv1a rs.delivered :=
    Reads.run_eq_foldl hashBuf_eq_foldl FNV_OFFSET_BASIS rs
  rw [shmNsCgroupHash, hhash, fingerprint]
  by_cases h0 : fnv1a rs.delivered = 0
  · rw [if_pos h0, if_neg (not_not_intro h0)]
  · rw [if_neg h0, if_pos h0]

/-- The fingerprint of all of the content, or 0 if not all of it could be read. -/
def HashesContent (content : List UInt8) (rs : CgroupReads) : Prop :=
  shmNsCgroupHash (some rs) = if rs.delivered = content then fingerprint content else 0

theorem hashesContent_iff {content : List UInt8} {rs : CgroupReads} :
    HashesContent content rs ↔ rs.delivered = content := by
  rw [HashesContent, shmNsCgroupHash_eq]
  by_cases hd : rs.delivered = content
  · rw [if_pos hd, hd]
    exact iff_of_true rfl rfl
  · rw [if_neg hd]
    exact iff_of_false (fingerprint_ne_zero _) hd

/-! ## The fingerprint in the header -/

/-- The states of a region whose creator had this fingerprint: users call the mutators and write
into payloads, and processes attach and detach. -/
inductive CreatedBy (G : Geometry) (cgroupHash : Nat) : Mem → Prop
  | create (m : Mem) (backend nsInode : Nat) (name : Option CStr) (r : Region) :
    CreatedBy G cgroupHash ((do
      regionInit G.size backend G.dirCap name nsInode cgroupHash
      countHost r : Prog Unit).mem m)
  | step {m m' : Mem} (h : CreatedBy G cgroupHash m) (hs : Step G AnyCall m m') :
    CreatedBy G cgroupHash m'
  | attach {m : Mem} (h : CreatedBy G cgroupHash m) (r : Region) :
    CreatedBy G cgroupHash ((countHost r).mem m)
  | detach {m : Mem} (h : CreatedBy G cgroupHash m) (r : Region) :
    CreatedBy G cgroupHash ((uncountHost r).mem m)

/-- Of the region header a call writes the free list, the counters and `next_id`, and nothing else.
-/
theorem CallRun.not_writes_header {c : Call} {rc : Rc} {W : List Event} {bs' : List Blk}
    (h : Inv G m bs) (hrun : CallRun G m bs c rc W bs') {x : Nat}
    (hx : x < 88 ∨ 120 ≤ x ∧ x < 200) : ¬ Writes W x := fun hw => by
  have hD := G.base_ge
  have hslot : ∀ {i : Nat}, ¬ InSlot i x := fun {i} hs => by
    have := slotAddr_ge i
    have := hs.1
    omega
  have hblk : ∀ {b : Blk}, ¬ InBlk G b x := fun hb => by
    have := hb.1
    omega
  have hfree : ∀ {cs : List Blk}, ¬ FreeListByte G cs x := fun hf => by
    rcases hf with hf | ⟨c, -, -, hc⟩
    · omega
    · have := hc.1
      omega
  have hlock : ∀ {r : Region} {V : List Event}, Writes (lockEvents r ++ V) x → Writes V x :=
    fun {r V} hV => (writes_append.1 hV).resolve_left (not_writes_lockEvents r x)
  cases hrun with
  | refused hrc hW =>
    rcases hW with rfl | ⟨r, rfl⟩
    · exact not_writes_nil x hw
    · simpa [Event.Touches] using hlock hw
  | alloc ht =>
    rcases writes_allocEvents h ht (hlock hw) with hw | hw | hw | hw
    · omega
    · exact hslot hw
    · exact hfree hw
    · exact hblk hw
  | free hf hh hacc =>
    rcases writes_freeEvents (hlock hw) with hw | hw | hw
    · omega
    · exact hslot hw
    · exact hfree hw
  | @resize _ _ _ _ i _ _ _ _ _ _ _ hf hh hacc hn hn' hrun =>
    rcases hrun.writes h hh.live hn (hlock hw) with (hw | hw | ⟨d, -, -, hw⟩) | hw
    · omega
    · exact hblk hw
    · exact hblk hw
    · have := slotAddr_ge i
      omega
  | @setPerms _ _ _ _ j _ _ _ _ hh hf hacc =>
    rcases writes_setPermsEvents (hlock hw) with hw | hw
    · omega
    · have := slotAddr_ge j
      omega

/-- A call writes neither the fingerprints nor the name. -/
theorem CallRun.not_writes_identity {c : Call} {rc : Rc} {W : List Event} {bs' : List Blk}
    (h : Inv G m bs) (hrun : CallRun G m bs c rc W bs') {x : Nat} (h1 : 120 ≤ x) (h2 : x < 200) :
    ¬ Writes W x :=
  hrun.not_writes_header h (.inr ⟨h1, h2⟩)

/-- No step of a run changes the fingerprints. -/
theorem Step.load_identity (h : Inv G m bs) (hs : Step G AnyCall m m') {a n : Nat}
    (h1 : 120 ≤ a) (h2 : a + n ≤ 200) : m'.load a n = m.load a n := by
  cases hs with
  | call c hl _ =>
    obtain ⟨rc, W, bs', hrun, hx⟩ := callRun h hl
    rw [hx.mem]
    refine load_replay fun x hw => ?_
    by_contra hx'
    exact hrun.not_writes_identity h (x := x) (by omega) (by omega) hw
  | write i k v hi ha hk =>
    have hD := G.base_ge
    exact Mem.load_store_of_disjoint (by omega)

/-- **The fingerprint of the creator stays in the header.** -/
theorem CreatedBy.inv_header {hash : UInt64} (h : CreatedBy G hash.toNat m) :
    (∃ bs, Inv G m bs) ∧ m.load 128 8 = hash.toNat := by
  have hcount : ∀ {V : List Event} {m : Mem}, (∀ x, Writes V x → 56 ≤ x ∧ x < 60) →
      (replay V m).load 128 8 = m.load 128 8 := fun hV => load_replay fun x hx => by
    have := hV x hx
    omega
  induction h with
  | create m backend nsInode name r =>
    obtain ⟨V, hx, hV⟩ := exec_countHost r
      ((regionInit G.size backend G.dirCap name nsInode hash.toNat).mem m)
    have hinit := exec_regionInit G m backend nsInode hash.toNat name
    rw [Prog.mem_bind, hx.mem, hcount hV, hinit.mem]
    refine ⟨⟨_, (fullInv_init m).toInv.of_hostCount_writes hV⟩, ?_⟩
    rw [load_init (by omega), headerEvents]
    simp only [replay_cons, replay_nil, Event.act]
    exact (Mem.load_store_same ..).trans (Nat.mod_eq_of_lt hash.toNat_lt)
  | step _ hs ih =>
    obtain ⟨⟨bs, hI⟩, hload⟩ := ih
    exact ⟨hs.inv hI, (hs.load_identity hI (by omega) (by omega)).trans hload⟩
  | attach _ r ih =>
    obtain ⟨⟨bs, hI⟩, hload⟩ := ih
    obtain ⟨V, hx, hV⟩ := exec_countHost r _
    rw [hx.mem]
    exact ⟨⟨bs, hI.of_hostCount_writes hV⟩, (hcount hV).trans hload⟩
  | detach _ r ih =>
    obtain ⟨⟨bs, hI⟩, hload⟩ := ih
    obtain ⟨V, hx, hV⟩ := exec_uncountHost r _
    rw [hx.mem]
    exact ⟨⟨bs, hI.of_hostCount_writes hV⟩, (hcount hV).trans hload⟩

theorem CreatedBy.header {hash : UInt64} (h : CreatedBy G hash.toNat m) :
    m.load 128 8 = hash.toNat := h.inv_header.2

/-! ## Who is kept out

The two opens may happen on different systems, so each comes with answers of its own; what they
share is the region. -/

/-- The check finds a difference if it is made and what the two were given has different
fingerprints. -/
theorem fingerprintDiffers_iff {flags flag : UInt32} {rs₁ rs₂ : CgroupReads} :
    fingerprintDiffers flags flag (shmNsCgroupHash (some rs₁)).toNat
        (shmNsCgroupHash (some rs₂)).toNat = true ↔
      flags &&& flag ≠ 0 ∧ fingerprint rs₁.delivered ≠ fingerprint rs₂.delivered := by
  have hne : ∀ bs, (fingerprint bs).toNat ≠ 0 := fun bs h0 =>
    fingerprint_ne_zero bs (UInt64.toNat_inj.1 h0)
  rw [shmNsCgroupHash_eq, shmNsCgroupHash_eq, fingerprintDiffers]
  simp only [Bool.and_eq_true, bne_iff_ne, ne_eq, hne, not_false_eq_true, and_true,
    UInt64.toNat_inj]
  exact and_congr_right fun _ => not_congr eq_comm

/-- The same options without the cgroup check. -/
def OpenOpts.ignoringCgroup (o : OpenOpts) : OpenOpts :=
  { o with flags := o.flags &&& ~~~SHM_OPEN_ENFORCE_CGROUP }

section

variable {env : Answers} {w w' : World} {name : CStr} {size : Nat} {o : OpenOpts}

/-- The other flags are as they were. -/
theorem OpenOpts.and_ignoringCgroup {flag : UInt32}
    (hflag : ~~~SHM_OPEN_ENFORCE_CGROUP &&& flag = flag) :
    o.ignoringCgroup.flags &&& flag = o.flags &&& flag := by
  rw [ignoringCgroup, UInt32.and_assoc, hflag]

theorem OpenOpts.creating_ignoringCgroup : o.ignoringCgroup.creating = o.creating := by
  rw [creating, creating, and_ignoringCgroup (by decide)]

/-- The check that is left out finds nothing. -/
theorem fingerprintDiffers_ignoringCgroup (stored mine : Nat) :
    fingerprintDiffers o.ignoringCgroup.flags SHM_OPEN_ENFORCE_CGROUP stored mine = false := by
  have hflag : o.ignoringCgroup.flags &&& SHM_OPEN_ENFORCE_CGROUP = 0 := by
    rw [OpenOpts.ignoringCgroup, UInt32.and_assoc,
      show ~~~SHM_OPEN_ENFORCE_CGROUP &&& SHM_OPEN_ENFORCE_CGROUP = 0 by decide, UInt32.and_zero]
  rw [fingerprintDiffers, hflag]
  rfl

/-- Without the check, the header is still checked for everything else. -/
theorem val_checkHeader_ignoringCgroup (m : Mem) :
    (checkHeader env o.flags).val m =
      if (checkHeader env o.ignoringCgroup.flags).val m = none ∧
          fingerprintDiffers o.flags SHM_OPEN_ENFORCE_CGROUP (m.load 128 8) env.cgroupHash = true
        then some EPERM else (checkHeader env o.ignoringCgroup.flags).val m := by
  have hns :
      fingerprintDiffers o.ignoringCgroup.flags SHM_OPEN_ENFORCE_NS (m.load 120 8) env.nsInode
      = fingerprintDiffers o.flags SHM_OPEN_ENFORCE_NS (m.load 120 8) env.nsInode := by
    rw [fingerprintDiffers, fingerprintDiffers, OpenOpts.and_ignoringCgroup (by decide)]
  rw [val_checkHeader, val_checkHeader, hns, fingerprintDiffers_ignoringCgroup]
  split
  · simp
  · split
    · simp
    · simp

/-- A call that would succeed is refused if the check finds a difference. -/
def enforcing (differs : Bool) (w : World) (x : Except Errno Region × World) :
    Except Errno Region × World :=
  match x.1 with
  | .ok _ => if differs then (.error EPERM, w) else x
  | .error _ => x

theorem enforcing_false (x : Except Errno Region × World) : enforcing false w x = x := by
  rw [enforcing]
  split <;> rfl

theorem mapRegion_enforcing (hc : o.creating = false) :
    mapRegion env w name o size =
      enforcing (fingerprintDiffers o.flags SHM_OPEN_ENFORCE_CGROUP
        ((w.bytes o.backend name).load 128 8) env.cgroupHash) w
        (mapRegion env w name o.ignoringCgroup size) := by
  have hc' : o.ignoringCgroup.creating = false := OpenOpts.creating_ignoringCgroup.trans hc
  have hdiscard : discard w name o.ignoringCgroup = discard w name o := by
    rw [discard, discard, hc, hc']
    rfl
  rw [mapRegion, mapRegion, hdiscard]
  by_cases hs : size < 4096
  · rw [if_pos hs, if_pos hs]
    rfl
  · rw [if_neg hs, if_neg hs]
    cases env.mmap size with
    | error e => rfl
    | ok map =>
      show enterRegion env w name o _ = enforcing _ w (enterRegion env w name o.ignoringCgroup _)
      have hbackend : o.ignoringCgroup.backend = o.backend := rfl
      rw [enterRegion, enterRegion, hc, hc', hbackend, if_neg Bool.false_ne_true,
        if_neg Bool.false_ne_true, val_checkHeader_ignoringCgroup]
      cases (checkHeader env o.ignoringCgroup.flags).val (w.bytes o.backend name) with
      | some e => rfl
      | none =>
        cases fingerprintDiffers o.flags SHM_OPEN_ENFORCE_CGROUP
          ((w.bytes o.backend name).load 128 8) env.cgroupHash with
        | false => rfl
        | true => rfl

/-- **What the check adds to a call that attaches.** -/
theorem shmRegionOpen_enforcing (hc : o.creating = false) (outRegion : Bool) :
    shmRegionOpen env w (some name) size (some o) outRegion =
      enforcing (fingerprintDiffers o.flags SHM_OPEN_ENFORCE_CGROUP
        ((w.bytes o.backend name).load 128 8) env.cgroupHash) w
        (shmRegionOpen env w (some name) size (some o.ignoringCgroup) outRegion) := by
  have hopen : openBacking env w name o.ignoringCgroup size = openBacking env w name o size := by
    rw [openBacking, openBacking, OpenOpts.creating_ignoringCgroup]
    rfl
  have hw := openBacking_attach env w name size hc
  rw [shmRegionOpen, shmRegionOpen]
  by_cases hout : outRegion = false
  · rw [if_pos hout, if_pos hout]
    rfl
  rw [if_neg hout, if_neg hout]
  by_cases hmem : env.calloc = false ∨ env.strdup = false
  · rw [if_pos hmem, if_pos hmem]
    rfl
  rw [if_neg hmem, if_neg hmem]
  show openNamed env w name o size = enforcing _ w (openNamed env w name o.ignoringCgroup size)
  rw [openNamed, openNamed, hopen]
  rcases hx : openBacking env w name o size with ⟨res, w'⟩
  rw [hx] at hw
  obtain rfl : w' = w := hw
  cases res with
  | error e => rfl
  | ok size' => exact mapRegion_enforcing hc

/-- Whoever created the region with the first answers lets in whoever opens it with the second:
the check makes no difference to the call. -/
def LetsIn (rs₁ rs₂ : CgroupReads) : Prop :=
  ∀ (G : Geometry) (env : Answers) (w : World) (name : CStr) (size : Nat) (o : OpenOpts)
    (outRegion : Bool), o.creating = false →
    CreatedBy G (shmNsCgroupHash (some rs₁)).toNat (w.bytes o.backend name) →
    env.cgroupHash = (shmNsCgroupHash (some rs₂)).toNat →
    shmRegionOpen env w (some name) size (some o) outRegion =
      shmRegionOpen env w (some name) size (some o.ignoringCgroup) outRegion

/-- A region of one page, just created by a process with this fingerprint. -/
def pageBy (cgroupHash : Nat) : Mem := (do
  regionInit 4096 0 2 none 0 cgroupHash
  countHost pageHandle : Prog Unit).mem zeros

/-- A system that grants whatever it can, to a process with this fingerprint. -/
def hostWith (cgroupHash : Nat) : Answers := { obliging with cgroupHash }

theorem poolWorld_shm (m : Mem) : (poolWorld m).shm poolName = some ⟨0, 4096, m⟩ := by
  simp [poolWorld]

theorem poolWorld_bytes (m : Mem) : (poolWorld m).bytes .posix poolName = m := by
  rw [World.bytes, poolWorld_shm]
  rfl

/-- The whole page is mapped. -/
theorem openNamed_hostWith (mine : Nat) (m : Mem) (o : OpenOpts) (hb : o.backend = .posix)
    (hc : o.creating = false) :
    openNamed (hostWith mine) (poolWorld m) poolName o 0 =
      enterRegion (hostWith mine) (poolWorld m) poolName o pageHandle := by
  have hbacking : openBacking (hostWith mine) (poolWorld m) poolName o 0 =
      (.ok 4096, poolWorld m) := by
    rw [openBacking, hb, openPosix, poolWorld_shm, hc]
    rfl
  have hmap : (hostWith mine).mmap 4096 =
      .ok ⟨4096, pageHandle.aligned, pageHandle.pos, by decide⟩ := by
    simp [hostWith, obliging]
  rw [openNamed, hbacking]
  show mapRegion _ _ _ _ _ = _
  rw [mapRegion, if_neg (by decide), hmap]
  rfl

theorem pageBy_created (cgroupHash : Nat) :
    CreatedBy pageGeometry cgroupHash (pageBy cgroupHash) :=
  .create zeros 0 0 none pageHandle

/-- The region is there for a process without the flag. -/
theorem pageBy_opens (cgroupHash mine : Nat) :
    ∃ r w, shmRegionOpen (hostWith mine) (poolWorld (pageBy cgroupHash))
      (some poolName) 0 (some {}) true = (.ok r, w) := by
  have hmagic : (pageBy cgroupHash).load 0 4 = SHM_ALLOC_MAGIC_REGION ∧
      (pageBy cgroupHash).load 4 4 = SHM_ALLOC_VERSION := by
    obtain ⟨V, hx, hV⟩ := exec_countHost pageHandle
      ((regionInit 4096 0 2 none 0 cgroupHash).mem zeros)
    have hinit : Exec 4096 (regionInit 4096 0 2 none 0 cgroupHash) zeros ()
        (initEvents pageGeometry 0 0 cgroupHash none) := exec_regionInit pageGeometry ..
    have hload : ∀ {a : Nat}, a + 4 ≤ 56 → (pageBy cgroupHash).load a 4 =
        (replay (headerEvents pageGeometry 0 0 cgroupHash) zeros).load a 4 := fun ha => by
      rw [pageBy, Prog.mem_bind, hx.mem, load_replay fun x hx => by have := hV x hx; omega]
      rw [hinit.mem, load_init (by omega)]
    have h1 : SHM_ALLOC_MAGIC_REGION % 256 ^ 4 = SHM_ALLOC_MAGIC_REGION := by decide
    have h2 : SHM_ALLOC_VERSION % 256 ^ 4 = SHM_ALLOC_VERSION := by decide
    constructor <;> rw [hload (by decide)] <;>
      simp only [headerEvents, replay_cons, replay_nil, Event.act] <;>
      simp (disch := omega) only [Mem.load_store_same, Mem.load_store_of_disjoint, h1, h2]
  have hval : (checkHeader (hostWith mine) 0).val (pageBy cgroupHash)
      = none := by
    rw [val_checkHeader, hmagic.1, hmagic.2]
    simp [fingerprintDiffers]
  have hopen : openNamed (hostWith mine) (poolWorld (pageBy cgroupHash)) poolName {} 0 =
      (.ok pageHandle, (poolWorld (pageBy cgroupHash)).setBytes .posix poolName
        ((countHost pageHandle).mem (pageBy cgroupHash))) := by
    rw [openNamed_hostWith _ _ _ rfl rfl, enterRegion, if_neg (by decide), poolWorld_bytes,
      hval]
  have hmem : ¬ ((hostWith mine).calloc = false ∨ (hostWith mine).strdup = false) := by
    rw [hostWith, obliging]
    simp
  rw [shmRegionOpen, if_neg (by decide), if_neg hmem]
  exact ⟨_, _, hopen⟩

/-- With the flag, a process with another fingerprint is refused. -/
theorem pageBy_refuses {rs₁ rs₂ : CgroupReads}
    (hne : fingerprint rs₁.delivered ≠ fingerprint rs₂.delivered) :
    shmRegionOpen (hostWith (shmNsCgroupHash (some rs₂)).toNat)
        (poolWorld (pageBy (shmNsCgroupHash (some rs₁)).toNat)) (some poolName) 0
        (some { flags := SHM_OPEN_ENFORCE_CGROUP }) true =
      (.error EPERM, poolWorld (pageBy (shmNsCgroupHash (some rs₁)).toNat)) := by
  obtain ⟨r, w, hopens⟩ := pageBy_opens (shmNsCgroupHash (some rs₁)).toNat
    (shmNsCgroupHash (some rs₂)).toNat
  have hdiffers : fingerprintDiffers SHM_OPEN_ENFORCE_CGROUP SHM_OPEN_ENFORCE_CGROUP
      (shmNsCgroupHash (some rs₁)).toNat (shmNsCgroupHash (some rs₂)).toNat = true :=
    fingerprintDiffers_iff.2 ⟨by decide, hne⟩
  have hplain : OpenOpts.ignoringCgroup { flags := SHM_OPEN_ENFORCE_CGROUP } = {} := rfl
  rw [shmRegionOpen_enforcing rfl, hplain, hopens, poolWorld_bytes, (pageBy_created _).header,
    hostWith, hdiffers]
  rfl

/-- **Who has the fingerprint of the creator is let in**, and nobody else. -/
theorem letsIn_iff {rs₁ rs₂ : CgroupReads} :
    LetsIn rs₁ rs₂ ↔ fingerprint rs₁.delivered = fingerprint rs₂.delivered := by
  constructor
  · intro h
    by_contra hne
    obtain ⟨r, w, hopens⟩ := pageBy_opens (shmNsCgroupHash (some rs₁)).toNat
      (shmNsCgroupHash (some rs₂)).toNat
    have hbytes := poolWorld_bytes (pageBy (shmNsCgroupHash (some rs₁)).toNat)
    have hsame := h pageGeometry (hostWith (shmNsCgroupHash (some rs₂)).toNat) _ poolName 0
      { flags := SHM_OPEN_ENFORCE_CGROUP } true rfl (hbytes.symm ▸ pageBy_created _) rfl
    rw [pageBy_refuses hne] at hsame
    cases hsame.trans hopens
  · intro h G env w name size o outRegion hc hcreated hmine
    have hsame : fingerprintDiffers o.flags SHM_OPEN_ENFORCE_CGROUP
        ((w.bytes o.backend name).load 128 8) env.cgroupHash = false := by
      rw [hcreated.header, hmine]
      exact Bool.eq_false_iff.2 fun hd => (fingerprintDiffers_iff.1 hd).2 h
    rw [shmRegionOpen_enforcing hc, hsame, enforcing_false]

/-- No read fails before all of the content has been delivered. -/
def ReadsAll (content : List UInt8) (rs : CgroupReads) : Prop := rs.Ends ∨ rs.delivered = content

theorem readsAll_iff {content : List UInt8} {rs : CgroupReads} (h : rs.Of content) :
    ReadsAll content rs ↔ rs.delivered = content :=
  ⟨fun hr => hr.elim h.all id, .inr⟩

/-- **The fingerprint depends on the content alone**, and a process with the content of the
creator's is let in, exactly as far as no read fails before all of the content has been
delivered. -/
theorem cgroup_fingerprint {content : List UInt8} {rs₁ rs₂ : CgroupReads} (h₁ : rs₁.Of content)
    (h₂ : rs₂.Of content) :
    (HashesContent content rs₁ ∧ HashesContent content rs₂ ∧ LetsIn rs₁ rs₂) ↔
      ReadsAll content rs₁ ∧ ReadsAll content rs₂ := by
  rw [hashesContent_iff, hashesContent_iff, readsAll_iff h₁, readsAll_iff h₂]
  refine ⟨fun ⟨hd₁, hd₂, _⟩ => ⟨hd₁, hd₂⟩, fun ⟨hd₁, hd₂⟩ => ⟨hd₁, hd₂, ?_⟩⟩
  exact letsIn_iff.2 (by rw [hd₁, hd₂])

/-- A process in the root group: `0::/`. -/
def cgroupFile : List UInt8 := [0x30, 0x3A, 0x3A, 0x2F, 0x0A]

/-- All of it in one read. -/
def readWhole : CgroupReads := .chunk cgroupFile (by decide) (by decide) .eof

/-- All of it in two reads. -/
def readSplit : CgroupReads :=
  .chunk [0x30, 0x3A] (by decide) (by decide)
    (.chunk [0x3A, 0x2F, 0x0A] (by decide) (by decide) .eof)

/-- The second read is interrupted. -/
def readInterrupted : CgroupReads := .chunk [0x30, 0x3A] (by decide) (by decide) .error

/-- Where the content is cut does not matter. -/
theorem cgroup_fingerprint_split :
    HashesContent cgroupFile readWhole ∧ HashesContent cgroupFile readSplit ∧
      LetsIn readWhole readSplit :=
  (cgroup_fingerprint ⟨by decide, fun _ => rfl⟩ ⟨by decide, fun _ => rfl⟩).2
    ⟨.inl trivial, .inl trivial⟩

/-- **An interrupted read** passes for the end of the file: the fingerprint is that of the part that
was read, and the process is refused. -/
theorem cgroup_fingerprint_fails :
    readWhole.Of cgroupFile ∧ readInterrupted.Of cgroupFile ∧
      readInterrupted.delivered ≠ cgroupFile ∧
      shmNsCgroupHash (some readInterrupted) = fnv1a [0x30, 0x3A] ∧ fnv1a [0x30, 0x3A] ≠ 0 ∧
      (shmRegionOpen (hostWith (shmNsCgroupHash (some readInterrupted)).toNat)
        (poolWorld (pageBy (shmNsCgroupHash (some readWhole)).toNat)) (some poolName) 0
        (some { flags := SHM_OPEN_ENFORCE_CGROUP }) true).1 = .error EPERM := by
  have hne : fingerprint readWhole.delivered ≠ fingerprint readInterrupted.delivered := by
    decide +kernel
  refine ⟨⟨by decide, fun _ => rfl⟩, ⟨by decide, False.elim⟩, by decide, by decide +kernel,
    by decide +kernel, ?_⟩
  rw [pageBy_refuses hne]

end

end ShmAlloc
