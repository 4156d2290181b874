import HobbyHash.ArithUint256

/-! # Consensus parameters

The fields of `Consensus::Params` that the modelled functions read, and the
values that `CMainParams` gives them. BIP9 deployments, seeds, address prefixes
and the other networks are not part of this development.
-/

namespace HobbyHash

/-- `uint256`: a hash, compared for equality or read as a number. -/
abbrev Uint256 := BitVec 256

/-- The script verification flags that blocks are checked with. -/
def scriptVerifyP2SH : UInt32 := (1 : UInt32) <<< (0 : UInt32)
def scriptVerifyDERSIG : UInt32 := (1 : UInt32) <<< (2 : UInt32)
def scriptVerifyNULLDUMMY : UInt32 := (1 : UInt32) <<< (4 : UInt32)
def scriptVerifyCHECKLOCKTIMEVERIFY : UInt32 := (1 : UInt32) <<< (9 : UInt32)
def scriptVerifyCHECKSEQUENCEVERIFY : UInt32 := (1 : UInt32) <<< (10 : UInt32)
def scriptVerifyWITNESS : UInt32 := (1 : UInt32) <<< (11 : UInt32)
def scriptVerifyTAPROOT : UInt32 := (1 : UInt32) <<< (17 : UInt32)

namespace Consensus

structure Params where
  hashGenesisBlock : Uint256
  nSubsidyHalvingInterval : Int
  /-- `script_flag_exceptions`, as the pairs the map was filled with. -/
  scriptFlagExceptions : List (Uint256 × UInt32)
  bip34Height : Int
  bip34Hash : Uint256
  bip65Height : Int
  bip66Height : Int
  csvHeight : Int
  segwitHeight : Int
  powLimit : Uint256
  fPowAllowMinDifficultyBlocks : Bool
  fPowNoRetargeting : Bool
  nPowTargetSpacing : Int
  nPowTargetTimespan : Int
  nPowRetargetActivationHeight : Int
  nPowRetargetTimespan : Int
  nPowRetargetV2ActivationHeight : Int
  nPowRetargetV2Timespan : Int
  nPowRetargetV3ActivationHeight : Int
  nPowRetargetV3MaxFactorNum : Int
  nPowRetargetV3MaxFactorDen : Int

def mainParams : Params where
  hashGenesisBlock := 0x00000000a746a8a7dba5237b7f9c92cb1b2690cb53ab2958ce76a506b1ea96af
  nSubsidyHalvingInterval := 840000
  scriptFlagExceptions :=
    [(0x00000000000002dc756eebf4f49723ed8d30cc28a5f108eb94b1ba88ac4f9c22, 0),
     (0x0000000000000000000f14c35b2d841e986ab5441de8c585d5ffe55ea1e395ad, 
      scriptVerifyP2SH ||| scriptVerifyWITNESS)]
  bip34Height := 227931
  bip34Hash := 0x000000000000024b89b42a942fe0d9fea3bb44ab7bd1b19115dd6a759c0808b8
  bip65Height := 388381
  bip66Height := 363725
  csvHeight := 419328
  segwitHeight := 108
  powLimit := 0x00000000ffffffffffffffffffffffffffffffffffffffffffffffffffffffff
  fPowAllowMinDifficultyBlocks := false
  fPowNoRetargeting := false
  nPowTargetSpacing := 150
  nPowTargetTimespan := 14 * 24 * 60 * 60
  nPowRetargetActivationHeight := 300
  nPowRetargetTimespan := 100 * 150
  nPowRetargetV2ActivationHeight := 800
  nPowRetargetV2Timespan := 150
  nPowRetargetV3ActivationHeight := 1900
  nPowRetargetV3MaxFactorNum := 5
  nPowRetargetV3MaxFactorDen := 4

end Consensus

end HobbyHash
