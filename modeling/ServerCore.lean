import ServerCore.NginxRwlock
import ServerCore.NginxRoundRobinFairness
import ServerCore.NginxHttpV2HuffRoundTrip
import ServerCore.LighttpdArrayMap
import ServerCore.NginxHttpV2SendFlow
import ServerCore.NginxHttpV2PriorityRuns
import ServerCore.NginxHttpHeaderRegister
import ServerCore.NginxHttpUriScan
import ServerCore.LighttpdGwBackendRuns
import ServerCore.LighttpdEnvDecoding
import ServerCore.LighttpdGwBalance
import ServerCore.LighttpdFdeventDispatch
import ServerCore.LighttpdWstunnelRuns
import ServerCore.LighttpdWstunnelSend
import ServerCore.NginxHttpMp4Seek
import ServerCore.NginxRoundRobinProbing
import ServerCore.NginxRoundRobinRequest
import ServerCore.NginxHttpChunkedBounds
import ServerCore.NginxHttpChunkedGrammar
import ServerCore.NginxHttpChunkedFilterDecoding
import ServerCore.NginxHttpRangeParsing
import ServerCore.NginxCidrPrefix
import ServerCore.NginxInet6Agreement
import ServerCore.NginxHttpV2Integer
import ServerCore.NginxSlabPageSize
import ServerCore.NginxHttpLimitReqCounts
import ServerCore.NginxSlabDoubleFree
import ServerCore.NginxHttpUpstreamHashChoice
import ServerCore.NginxHashBuild
import ServerCore.NginxHttpV2SendChainFrames
import ServerCore.NginxHttpV2HeaderRuns
import ServerCore.NginxEventTimerRuns
import ServerCore.NginxParseTimeExact
import ServerCore.NginxBase64Decoding
import ServerCore.NginxUtf8Length
import ServerCore.NginxEscapeUriRoundTrip
import ServerCore.NginxHttpArgLookup
import ServerCore.NginxHttpTimeRoundTrip
import ServerCore.NginxRadixTreeKeyBytes
import ServerCore.NginxProxyProtocolRoundTrip
import ServerCore.NginxResolverQueryRoundTrip
import ServerCore.NginxResolverAnswersPasses
import ServerCore.NginxStrRbtree
import ServerCore.NginxStrRbtreeOrder
import ServerCore.NginxStrRbtreeRuns
import ServerCore.NginxHttpMp4SttsCrop
import ServerCore.LighttpdBase64Decoding
import ServerCore.LighttpdChunkEmpty
import ServerCore.LighttpdUrlCodingRoundTrip
