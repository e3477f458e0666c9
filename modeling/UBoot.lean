import UBoot.IoLmb
import UBoot.LmbAllocBase
import UBoot.LmbQueries
import UBoot.LmbEfiAgreement
import UBoot.HashTableRuns
import UBoot.EnvCrlf
import UBoot.EnvExportSize
import UBoot.EnvImport
import UBoot.EnvLinear
import UBoot.EnvRedundant
import UBoot.IpDefragDatagram
import UBoot.TftpGet
import UBoot.TftpPut
import UBoot.TcpHills
import UBoot.BloblistHandoff
import UBoot.MembufFifo
import UBoot.CharsetLength
import UBoot.RsaPowMod
import UBoot.SparseImageExpand
import UBoot.FitRequiredKeys
import UBoot.FdtRegionCoverage
import UBoot.EfiVarHidden
import UBoot.BlkCacheTransparent
import UBoot.NandSkipBad
import UBoot.GptLookup
import UBoot.GptRoundTrip
import UBoot.FwEnvGetenv
import UBoot.FwEnvAgreement
import UBoot.FwEnvPowerFail
import UBoot.ArmPageTables
import UBoot.CliHistory
import UBoot.CliReadline
import UBoot.HashTableMatch
import UBoot.UdpChecksum
import UBoot.AndroidAbRuns
import UBoot.FatTime
import UBoot.Ext4Extent
import UBoot.TcpWindow
import UBoot.Dfu
