import GrandCross.CText

/-!
# The start of gnfsd

`nfsd/main.c`: the ports are bound with the rights of the caller, who is root
for the portmapper's.  Then the server goes over to the user given with `-u`,
or to the owner of the export, for good.
-/

namespace GrandCross

open CText

/-! ## Users of the host -/

structure User where
  uid : UInt32
  gid : UInt32
  deriving DecidableEq

/-- Real, effective and saved ids of the process. -/
structure Creds where
  ruid : UInt32
  euid : UInt32
  suid : UInt32
  rgid : UInt32
  egid : UInt32
  sgid : UInt32
  groups : List UInt32
  deriving DecidableEq

/-- Root takes any user but -1, anybody else only the real or saved one. -/
def Creds.setuid (c : Creds) (uid : UInt32) : Option Creds :=
  if uid = -1 then none
  else if c.euid = 0 then some { c with ruid := uid, euid := uid, suid := uid }
  else if uid = c.ruid ∨ uid = c.suid then some { c with euid := uid }
  else none

def Creds.setgid (c : Creds) (gid : UInt32) : Option Creds :=
  if gid = -1 then none
  else if c.euid = 0 then some { c with rgid := gid, egid := gid, sgid := gid }
  else if gid = c.rgid ∨ gid = c.sgid then some { c with egid := gid }
  else none

/-- `setgroups(0, NULL)`. -/
def Creds.setgroups (c : Creds) : Option Creds :=
  if c.euid = 0 then some { c with groups := [] } else none

/-- What the calls of `main` answer.  `bind` knows the ports bound before, and
the last three tell which calls fail whatever the rights are. -/
structure NfsdHost where
  getpwnam : Bytes → Option User
  getpwuid : UInt32 → Option User
  realpath : Bytes → Option Bytes
  stat : Bytes → Option User
  bind : List UInt16 → UInt16 → Bool
  noGroups : Bool
  noGid : Bool
  noUid : Bool

/-! ## The code -/

/-- Where `strtol` stops; at the start when there are no digits. -/
def strtolEnd (s : Bytes) : Bytes :=
  let unsigned := match s.dropWhile isSpace with
    | [] => []
    | b :: rest => if b = minus ∨ b = plus then rest else b :: rest
  match unsigned with
  | [] => s
  | b :: rest => if isDigit b then rest.dropWhile isDigit else s

/-- `atoi` on an LP64 host: the low half of the `long`. -/
def atoi (s : Bytes) : ℤ := (atol s).bmod (2 ^ 32)

def resolveUser (h : NfsdHost) (spec : Bytes) : Option User :=
  match h.getpwnam spec with
  | some pw => some pw
  | none =>
      let n := atol spec
      if strtolEnd spec = [] ∧ 0 ≤ n then
        let uid := UInt32.ofInt n
        match h.getpwuid uid with
        | some pw => some ⟨uid, pw.gid⟩
        | none => some ⟨uid, uid⟩
      else none

def refusing (no : Bool) (r : Option Creds) : Option Creds := if no then none else r

def dropTo (h : NfsdHost) (c : Creds) (u : User) : Option Creds :=
  (refusing h.noGroups c.setgroups).bind fun c =>
    (refusing h.noGid (c.setgid u.gid)).bind fun c =>
      (refusing h.noUid (c.setuid u.uid)).bind fun c =>
        -- Root must not come back.
        if (c.setuid 0).isSome then none else some c

structure NfsdArgs where
  pmapPort : ℤ := 111
  nfsPort : ℤ := 2049
  verbose : Bool := false
  dir : Option Bytes := none
  userspec : Option Bytes := none

/-- An argument that takes no value. -/
def NfsdArgs.plain (a : NfsdArgs) (arg : Bytes) : Option NfsdArgs :=
  if arg = ascii "-v" then some { a with verbose := true }
  else if arg.head? ≠ some minus then some { a with dir := some arg }
  else none

def NfsdArgs.parse (a : NfsdArgs) : List Bytes → Option NfsdArgs
  | [] => some a
  | [arg] => a.plain arg
  | arg :: val :: rest =>
      if arg = ascii "-p" then { a with pmapPort := atoi val }.parse rest
      else if arg = ascii "-n" then { a with nfsPort := atoi val }.parse rest
      else if arg = ascii "-u" then { a with userspec := some val }.parse rest
      else
        match a.plain arg with
        | none => none
        | some a => a.parse (val :: rest)

/-- What `rpc_serve` is called with. -/
structure Serving where
  ports : List UInt16
  root : Bytes
  nfsPort : ℤ
  verbose : Bool
  creds : Creds
  deriving DecidableEq

/-- `htons((unsigned short)port)`. -/
def portOf (port : ℤ) : UInt16 := UInt16.ofInt port

/-- The user for the file operations. -/
def runUser (h : NfsdHost) (a : NfsdArgs) (owner : User) : Option User :=
  match a.userspec with
  | some spec => resolveUser h spec
  | none => some owner

def bindPorts (h : NfsdHost) (a : NfsdArgs) : Option (List UInt16) :=
  let nfs := portOf a.nfsPort
  if h.bind [] nfs then
    if a.pmapPort = a.nfsPort then some [nfs]
    else if h.bind [nfs] (portOf a.pmapPort) then some [nfs, portOf a.pmapPort]
    else none
  else none

def serveAs (h : NfsdHost) (c : Creds) (u : User) : Option Creds :=
  if c.euid = 0 ∧ u.uid ≠ 0 then dropTo h c u else some c

/-- `main` behind its arguments: the exit code, or what is served. -/
def nfsdStart (h : NfsdHost) (c : Creds) (a : NfsdArgs) : ℕ ⊕ Serving :=
  match a.dir.bind h.realpath with
  | none => .inl 2
  | some abs =>
    match (h.stat abs).bind (runUser h a) with
    | none => .inl 2
    | some u =>
      match bindPorts h a, serveAs h c u with
      | some ports, some c => .inr ⟨ports, abs, a.nfsPort, a.verbose, c⟩
      | _, _ => .inl 1

def nfsdMain (h : NfsdHost) (c : Creds) (argv : List Bytes) : ℕ ⊕ Serving :=
  match ({} : NfsdArgs).parse argv with
  | none => .inl 2
  | some a => nfsdStart h c a

/-! ## Whose server it is -/

/-- A user spec that means root: by name, or as a number, where nothing at all
reads as 0 and the high half is lost. -/
def RootSpec (h : NfsdHost) (spec : Bytes) : Prop :=
  (∃ gid, h.getpwnam spec = some ⟨0, gid⟩) ∨
    h.getpwnam spec = none ∧ strtolEnd spec = [] ∧ 0 ≤ atol spec ∧ (2 ^ 32 : ℤ) ∣ atol spec

def AsksRoot (h : NfsdHost) (a : NfsdArgs) (owner : User) : Prop :=
  match a.userspec with
  | some spec => RootSpec h spec
  | none => owner.uid = 0

/-- All ids are those of the user, and there are no groups. -/
def Creds.of (u : User) : Creds := ⟨u.uid, u.uid, u.uid, u.gid, u.gid, u.gid, []⟩

/-- After any further calls of `setuid`, whatever they answer. -/
def Creds.later (c : Creds) (uids : List UInt32) : Creds :=
  uids.foldl (fun c uid => (c.setuid uid).getD c) c

theorem ofInt_eq_zero_iff (n : ℤ) : UInt32.ofInt n = 0 ↔ (2 ^ 32 : ℤ) ∣ n := by
  rw [← UInt32.toNat_inj, UInt32.ofInt, UInt32.toNat_ofNat']
  have hzero : (0 : UInt32).toNat = 0 := rfl
  rw [hzero]
  omega

theorem resolveUser_root {h : NfsdHost} {spec : Bytes} {u : User}
    (hu : resolveUser h spec = some u) : u.uid = 0 ↔ RootSpec h spec := by
  unfold resolveUser at hu
  unfold RootSpec
  cases hname : h.getpwnam spec with
  | some pw =>
      rw [hname] at hu
      simp only [Option.some.injEq, reduceCtorEq, false_and, or_false] at hu ⊢
      subst hu
      constructor
      · intro hzero
        exact ⟨pw.gid, by rw [← hzero]⟩
      · rintro ⟨gid, rfl⟩
        rfl
  | none =>
      rw [hname] at hu
      dsimp only at hu
      split_ifs at hu with hnumber
      have huid : u.uid = UInt32.ofInt (atol spec) := by
        split at hu <;>
          · rw [Option.some.injEq] at hu
            rw [← hu]
      rw [huid, ofInt_eq_zero_iff]
      simp [hnumber]

theorem runUser_root {h : NfsdHost} {a : NfsdArgs} {owner u : User}
    (hu : runUser h a owner = some u) : u.uid = 0 ↔ AsksRoot h a owner := by
  unfold runUser at hu
  unfold AsksRoot
  cases hspec : a.userspec with
  | some spec =>
      rw [hspec] at hu
      exact resolveUser_root hu
  | none =>
      rw [hspec, Option.some.injEq] at hu
      rw [hu]

theorem refusing_some {no : Bool} {r : Option Creds} {c : Creds}
    (h : refusing no r = some c) : r = some c := by
  unfold refusing at h
  split_ifs at h
  exact h

theorem Creds.setgroups_root {c c' : Creds} (hroot : c.euid = 0) (h : c.setgroups = some c') :
    c' = { c with groups := [] } := by
  rw [setgroups, if_pos hroot, Option.some.injEq] at h
  exact h.symm

theorem Creds.setgid_root {c c' : Creds} {gid : UInt32} (hroot : c.euid = 0)
    (h : c.setgid gid = some c') : c' = { c with rgid := gid, egid := gid, sgid := gid } := by
  rw [setgid] at h
  split_ifs at h
  exact (Option.some.injEq _ _ ▸ h).symm

theorem Creds.setuid_root {c c' : Creds} {uid : UInt32} (hroot : c.euid = 0)
    (h : c.setuid uid = some c') : c' = { c with ruid := uid, euid := uid, suid := uid } := by
  rw [setuid] at h
  split_ifs at h
  exact (Option.some.injEq _ _ ▸ h).symm

/-- The three calls leave nothing of root, or fail. -/
theorem dropTo_root {h : NfsdHost} {c c' : Creds} {u : User} (hroot : c.euid = 0)
    (hdrop : dropTo h c u = some c') : c' = Creds.of u := by
  obtain ⟨c₁, hgroups, hrest⟩ := Option.bind_eq_some_iff.mp hdrop
  obtain ⟨c₂, hgid, hrest⟩ := Option.bind_eq_some_iff.mp hrest
  obtain ⟨c₃, huid, hlast⟩ := Option.bind_eq_some_iff.mp hrest
  split_ifs at hlast
  have h₁ := Creds.setgroups_root hroot (refusing_some hgroups)
  have hroot₁ : c₁.euid = 0 := by rw [h₁]; exact hroot
  have h₂ := Creds.setgid_root hroot₁ (refusing_some hgid)
  have hroot₂ : c₂.euid = 0 := by rw [h₂]; exact hroot₁
  have h₃ := Creds.setuid_root hroot₂ (refusing_some huid)
  rw [Option.some.injEq] at hlast
  rw [← hlast, h₃, h₂, h₁]
  rfl

/-- Without root among the three ids there is no way back to it. -/
theorem later_not_root {c : Creds} (hreal : c.ruid ≠ 0) (heff : c.euid ≠ 0) (hsaved : c.suid ≠ 0)
    (uids : List UInt32) : (c.later uids).euid ≠ 0 := by
  unfold Creds.later
  induction uids generalizing c with
  | nil => exact heff
  | cons uid uids ih =>
      rw [List.foldl_cons]
      have hkept : ((c.setuid uid).getD c).ruid = c.ruid ∧
          ((c.setuid uid).getD c).euid ≠ 0 ∧ ((c.setuid uid).getD c).suid = c.suid := by
        unfold Creds.setuid
        split_ifs with hnone howner
        · exact ⟨rfl, heff, rfl⟩
        · refine ⟨rfl, ?_, rfl⟩
          rintro (rfl : uid = 0)
          rcases howner with hsame | hsame
          · exact hreal hsame.symm
          · exact hsaved hsame.symm
        · exact ⟨rfl, heff, rfl⟩
      exact ih (by rw [hkept.1]; exact hreal) hkept.2.1 (by rw [hkept.2.2]; exact hsaved)

/-- What `main` has gone through when it serves. -/
structure Started (h : NfsdHost) (c : Creds) (a : NfsdArgs) (owner u : User) (s : Serving) :
    Prop where
  root : a.dir.bind h.realpath = some s.root
  owns : h.stat s.root = some owner
  user : runUser h a owner = some u
  ports : s.ports =
    portOf a.nfsPort :: if a.pmapPort = a.nfsPort then [] else [portOf a.pmapPort]
  dropped : c.euid = 0 → u.uid ≠ 0 → s.creds = Creds.of u
  kept : c.euid ≠ 0 ∨ u.uid = 0 → s.creds = c

theorem bindPorts_some {h : NfsdHost} {a : NfsdArgs} {ports : List UInt16}
    (hports : bindPorts h a = some ports) :
    ports = portOf a.nfsPort :: if a.pmapPort = a.nfsPort then [] else [portOf a.pmapPort] := by
  simp only [bindPorts] at hports
  split_ifs at hports ⊢ <;> exact (Option.some.inj hports).symm

theorem serveAs_some {h : NfsdHost} {c c' : Creds} {u : User}
    (hserve : serveAs h c u = some c') :
    (c.euid = 0 → u.uid ≠ 0 → c' = Creds.of u) ∧ (c.euid ≠ 0 ∨ u.uid = 0 → c' = c) := by
  unfold serveAs at hserve
  split_ifs at hserve with hroot
  · refine ⟨fun _ _ => dropTo_root hroot.1 hserve, ?_⟩
    rintro (hnot | hzero)
    · exact absurd hroot.1 hnot
    · exact absurd hzero hroot.2
  · exact ⟨fun hzero hne => absurd ⟨hzero, hne⟩ hroot, fun _ => (Option.some.inj hserve).symm⟩

theorem nfsdStart_started {h : NfsdHost} {c : Creds} {a : NfsdArgs} {s : Serving}
    (hserves : nfsdStart h c a = .inr s) : ∃ owner u, Started h c a owner u s := by
  unfold nfsdStart at hserves
  cases habs : a.dir.bind h.realpath with
  | none => simp [habs] at hserves
  | some abs =>
      cases huser : (h.stat abs).bind (runUser h a) with
      | none => simp [habs, huser] at hserves
      | some u =>
          cases hports : bindPorts h a with
          | none => simp [habs, huser, hports] at hserves
          | some ports =>
              cases hcreds : serveAs h c u with
              | none => simp [habs, huser, hports, hcreds] at hserves
              | some c' =>
                  simp only [habs, huser, hports, hcreds, Sum.inr.injEq] at hserves
                  obtain ⟨owner, howner, hrun⟩ := Option.bind_eq_some_iff.mp huser
                  obtain ⟨hdropped, hkept⟩ := serveAs_some hcreds
                  subst hserves
                  exact ⟨owner, u, habs, howner, hrun, bindPorts_some hports, hdropped, hkept⟩

/-- The server works as root exactly when it is started as root and root is
asked for, or owns the export; else, started as root, it is the user alone and
no call of `setuid` leads back. -/
theorem nfsd_user_exact
    (h : NfsdHost) (c : Creds) (argv : List Bytes) {s : Serving}
    (hserves : nfsdMain h c argv = .inr s) :
    ∃ a owner u, ({} : NfsdArgs).parse argv = some a ∧ Started h c a owner u s ∧
      (s.creds.euid = 0 ↔ c.euid = 0 ∧ AsksRoot h a owner) ∧
      (c.euid = 0 → ¬ AsksRoot h a owner → ∀ uids, (s.creds.later uids).euid ≠ 0) := by
  unfold nfsdMain at hserves
  cases hargs : ({} : NfsdArgs).parse argv with
  | none => simp [hargs] at hserves
  | some a =>
      rw [hargs] at hserves
      obtain ⟨owner, u, hstarted⟩ := nfsdStart_started hserves
      have hasks := runUser_root hstarted.user
      refine ⟨a, owner, u, rfl, hstarted, ?_, ?_⟩
      · rw [← hasks]
        by_cases hboth : c.euid = 0 ∧ u.uid ≠ 0
        · have hcreds := hstarted.dropped hboth.1 hboth.2
          have heuid : s.creds.euid = u.uid := by rw [hcreds]; rfl
          rw [heuid]
          simp [hboth.1]
        · have hcreds := hstarted.kept (by tauto)
          rw [hcreds]
          tauto
      · intro hroot hother uids
        rw [← hasks] at hother
        have hcreds := hstarted.dropped hroot hother
        rw [hcreds]
        exact later_not_root hother hother hother uids

/-- A host where everything is owned by user 1000 and every port is free. -/
def plainHost : NfsdHost where
  getpwnam name := if name = ascii "alice" then some ⟨1000, 100⟩ else none
  getpwuid _ := none
  realpath path := some path
  stat _ := some ⟨1000, 100⟩
  bind _ _ := true
  noGroups := false
  noGid := false
  noUid := false

def rootCreds : Creds := ⟨0, 0, 0, 0, 0, 0, [0]⟩

theorem nfsd_user_exact_owner :
    ∃ a owner u, ({} : NfsdArgs).parse [ascii "/export"] = some a ∧
      Started plainHost rootCreds a owner u
        ⟨[2049, 111], ascii "/export", 2049, false, Creds.of ⟨1000, 100⟩⟩ ∧
      ((Creds.of ⟨1000, 100⟩).euid = 0 ↔ rootCreds.euid = 0 ∧ AsksRoot plainHost a owner) ∧
      (rootCreds.euid = 0 → ¬ AsksRoot plainHost a owner →
        ∀ uids, ((Creds.of ⟨1000, 100⟩).later uids).euid ≠ 0) :=
  nfsd_user_exact plainHost rootCreds [ascii "/export"] (by decide)

example :
    (nfsdMain plainHost rootCreds [ascii "-u", [], ascii "/export"]).map id Serving.creds =
        .inr rootCreds ∧
      (nfsdMain plainHost rootCreds [ascii "-u", ascii "4294967296", ascii "/export"]).map id
        Serving.creds = .inr rootCreds := by
  decide

end GrandCross
